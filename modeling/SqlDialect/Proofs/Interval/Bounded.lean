import SqlDialect.Proofs.Interval.Level

/-!
# The bounds of a base

Where every quote is closed, the searches in both directions agree on the nesting. The search to the left from the
sign passes over an operand and stops at what bounds it. The search to the right passes over the same pieces and finds
the last stop word at their top level.

* `openingIn_split`, `operand_of_boundaryBefore`: what the search to the left has passed over.
* `stopWordCut_spec`: the last stop word.
* `readBase_spec`: the base lies behind it in the operand.
* `locate_bounded`: the base of an expression, and what it stands behind.
-/

namespace SqlDialect.Interval

/-- Every quote stands in a literal or in a comment. -/
def QuotesClosed (text : Text) : Prop := ∀ c, .code c ∈ pieces text → isQuote c = false

instance (text : Text) : Decidable (QuotesClosed text) :=
  decidable_of_iff (∀ p ∈ pieces text, (p.isCode && p.text.any isQuote) = false) <| by
    constructor
    · intro h c hc
      simpa [Piece.isCode, Piece.text] using h _ hc
    · intro h p hp
      cases p with
      | code c => simpa [Piece.isCode, Piece.text] using h c hp
      | region kind t => rfl

theorem quotesClosed_of_nest {T : Text} {s t : List Char} (h : nest s (pieces T) = some t) : QuotesClosed T :=
  fun _ hc => isQuote_of_nest h hc

/-! ## To the left -/

/-- **The bracket that is found** stands in front of pieces in which just the brackets are open that are closed behind
them. -/
theorem openingIn_split {ps : List Piece} {s : List Char} {c : Char} {n : Nat}
    (hq : ∀ d, .code d ∈ ps → isQuote d = false) (h : openingIn (s ++ [c]) (marksBack ps) = some n) :
    ∃ qs o zs t, ps = qs ++ .code o :: zs ∧ (textOf qs).length = n ∧ closerOf? o = some c ∧ nest [] zs = some t ∧
      t.map closerOf? = s.map some := by
  induction ps using List.reverseRecOn generalizing s with
  | nil => cases h
  | append_singleton ms p ih =>
    have hquotes : ∀ d, .code d ∈ ms → isQuote d = false := fun d hd => hq d (List.mem_append_left _ hd)
    have hkeep : ∀ {s' : List Char}, openingIn (s' ++ [c]) (marksBack ms) = some n →
        (∀ u, u.map closerOf? = s'.map some → ∃ t, NestStep u p t ∧ t.map closerOf? = s.map some) →
        ∃ qs o zs t, ms ++ [p] = qs ++ .code o :: zs ∧ (textOf qs).length = n ∧ closerOf? o = some c ∧
          nest [] zs = some t ∧ t.map closerOf? = s.map some := by
      intro s' hs' hp
      obtain ⟨qs, o, zs, u, rfl, hn, ho, hzs, hu⟩ := ih hquotes hs'
      obtain ⟨t, hstep, ht⟩ := hp u hu
      exact ⟨qs, o, zs ++ [p], t, by simp, hn, ho, nest_snoc_iff.mpr ⟨u, hzs, hstep⟩, ht⟩
    rw [marksBack_append] at h
    cases p with
    | region kind r =>
      rw [openingIn_regions fun m hm => mem_marksBack_region hm] at h
      exact hkeep h fun u hu => ⟨u, .region u kind r, hu⟩
    | code x =>
      rw [marksBack_code, List.singleton_append] at h
      by_cases hcl : isCloser x = true
      · -- the bracket that this one closes is open in front of it
        rw [openingIn_closer hcl, ← List.cons_append] at h
        refine hkeep h fun u hu => ?_
        obtain ⟨o, t, rfl, ho, ht⟩ := List.map_eq_cons_iff.mp hu
        exact ⟨t, .closer t (closerOf?_eq_some_iff.mp ho), ht⟩
      · by_cases hop : isOpener x = true
        · obtain ⟨d, hd⟩ := Option.isSome_iff_exists.mp hop
          rw [openingIn.eq_def] at h
          cases s with
          | nil =>
            simp only [List.nil_append, hcl, Bool.false_eq_true, if_false, hd, List.isEmpty_nil, if_true] at h
            split at h
            · cases h
            · next hcd =>
              refine ⟨ms, x, [], [], rfl, ?_, by rw [hd, Decidable.not_not.mp hcd], rfl, rfl⟩
              rw [← length_marksBack]
              exact Option.some.inj h
          | cons top s =>
            simp only [List.cons_append, hcl, Bool.false_eq_true, if_false, hd] at h
            split at h
            · cases h
            · next htop =>
              rw [if_neg (by simp)] at h
              refine hkeep h fun u hu => ⟨x :: u, .opener u hop, ?_⟩
              rw [List.map_cons, List.map_cons, hd, hu, Decidable.not_not.mp htop]
        · rw [openingIn_code (by simpa using hop) (by simpa using hcl)] at h
          exact hkeep h fun u hu => ⟨u, .plain u (hq x (by simp)) (by simpa using hop) (by simpa using hcl), hu⟩

/-- **The boundary that is found** stands in front of an operand. -/
theorem operand_of_boundaryBefore {ps : List Piece} {b : Boundary} (hq : ∀ d, .code d ∈ ps → isQuote d = false)
    (h : boundaryBefore (marksBack ps) = .ok b) :
    ∃ as xs, ps = as ++ xs ∧ Operand xs ∧ Bounds as ∧ b.start = (textOf as).length := by
  induction hlen : ps.length using Nat.strongRecOn generalizing ps with
  | ind m ih =>
    rcases List.eq_nil_or_concat ps with rfl | ⟨ms, p, rfl⟩
    · rw [marksBack_nil, boundaryBefore, Except.ok.injEq] at h
      exact ⟨[], [], rfl, operand_nil, Or.inl rfl, by rw [← h]; rfl⟩
    · rw [List.concat_eq_append] at h hq hlen ⊢
      rw [List.length_append, List.length_singleton] at hlen
      have hqms : ∀ d, .code d ∈ ms → isQuote d = false := fun d hd => hq d (List.mem_append_left _ hd)
      rw [marksBack_append] at h
      cases p with
      | region kind t =>
        rw [boundaryBefore_regions fun m hm => mem_marksBack_region hm] at h
        obtain ⟨as, xs, rfl, hxs, has, hb⟩ := ih ms.length (by omega) hqms h rfl
        exact ⟨as, xs ++ [.region kind t], by simp, hxs.append (operand_single rfl (by simp)), has, hb⟩
      | code x =>
        rw [marksBack_code, List.singleton_append, boundaryBefore] at h
        have hquote : isQuote x = false := hq x (by simp)
        rw [if_neg (by simp [hquote])] at h
        split at h
        · next hcl =>
          -- the search goes on in front of the bracket that is closed here
          split at h
          · cases h
          · next opener ho =>
            obtain ⟨qs, o, zs, t, rfl, rfl, hox, hzs, ht⟩ := openingIn_split (s := []) hqms ho
            rw [List.map_nil, List.map_eq_nil_iff] at ht
            subst ht
            have hlt : qs.length < m := by
              rw [List.length_append, List.length_cons] at hlen
              omega
            have hdrop : (marksBack (qs ++ .code o :: zs)).drop
                ((marksBack (qs ++ .code o :: zs)).length - (textOf qs).length) = marksBack qs := by
              rw [marksBack_append, List.length_append, length_marksBack qs, Nat.add_sub_cancel, List.drop_left]
            rw [hdrop] at h
            obtain ⟨as, xs, rfl, hxs, has, hb⟩ :=
              ih qs.length hlt (fun d hd => hqms d (List.mem_append_left _ hd)) h rfl
            refine ⟨as, xs ++ (.code o :: (zs ++ [.code x])), by simp, hxs.append ?_, has, hb⟩
            exact operand_enclosed hzs (closerOf?_eq_some_iff.mp hox)
        · next hcl =>
          split at h
          · next hop =>
            cases h
            refine ⟨ms ++ [.code x], [], by simp, operand_nil, Or.inr ⟨ms, x, rfl, Or.inl hop⟩, ?_⟩
            simp [Boundary.start, length_marksBack, Piece.text]
          · next hop =>
            split at h
            · next hsep =>
              cases h
              refine ⟨ms ++ [.code x], [], by simp, operand_nil, Or.inr ⟨ms, x, rfl, Or.inr hsep⟩, ?_⟩
              simp [Boundary.start, length_marksBack, Piece.text]
            · next hsep =>
              obtain ⟨as, xs, rfl, hxs, has, hb⟩ := ih ms.length (by omega) hqms h rfl
              refine ⟨as, xs ++ [.code x], by simp, hxs.append (operand_single ?_ fun c hc => ?_), has, hb⟩
              · rw [nest_code hquote (by simpa using hop) (by simpa using hcl), nest_nil]
              · rw [← Piece.code.inj hc]
                simpa using hsep

/-! ## To the right -/

/-- No stop word starts at the top level of the pieces, between `before` and the text `r`. -/
def NoStopWord (before : Option Char) (ps : List Piece) (r : Text) : Prop :=
  ∀ ms c ns, ps = ms ++ .code c :: ns → nest [] ms = some [] →
    ∀ w ∈ stopWords, startsKeyword w ((textOf ms).getLast?.or before) (c :: (textOf ns ++ r)) = false

theorem noStopWord_iff {before : Option Char} {ps : List Piece} {r : Text} :
    NoStopWord before ps r ↔ NoneLevel (fun b t => stopWords.any fun w => startsKeyword w b t) before ps r := by
  simp only [NoStopWord, NoneLevel, List.any_eq_false, Bool.not_eq_true]

theorem NoStopWord.append {before : Option Char} {ps qs : List Piece} {r : Text}
    (hp : NoStopWord before ps (textOf qs ++ r)) (hn : nest [] ps = some [])
    (hq : NoStopWord ((textOf ps).getLast?.or before) qs r) : NoStopWord before (ps ++ qs) r :=
  noStopWord_iff.mpr ((noStopWord_iff.mp hp).append hn (noStopWord_iff.mp hq))

/-- The pieces end with a stop word that stands at their top level. -/
def EndsInTopWord (before : Option Char) (ps : List Piece) (r : Text) : Prop :=
  ∃ ms v w, ps = ms ++ v.map .code ∧ w ∈ stopWords ∧ v.length = w.length ∧
    startsKeyword w ((textOf ms).getLast?.or before) (v ++ r) = true

theorem EndsInTopWord.append {before : Option Char} {ps : List Piece} {r : Text} {qs : List Piece}
    (h : EndsInTopWord ((textOf qs).getLast?.or before) ps r) : EndsInTopWord before (qs ++ ps) r := by
  obtain ⟨ms, v, w, rfl, hw, hlen, hs⟩ := h
  refine ⟨qs ++ ms, v, w, by rw [List.append_assoc], hw, hlen, ?_⟩
  rwa [textOf_append, List.getLast?_append, Option.or_assoc]

/-- The pieces from position `i` on are cut behind their last stop word at position `cut`, or they hold none and the
position found before them is kept. -/
structure LastCut (before : Option Char) (i start cut : Nat) (ps : List Piece) (r : Text) (ys zs : List Piece) :
    Prop where
  split : ps = ys ++ zs
  nest : nest [] ys = some []
  free : NoStopWord ((textOf ys).getLast?.or before) zs r
  place : ys = [] ∧ cut = start ∨ EndsInTopWord before ys (textOf zs ++ r) ∧ cut = i + (textOf ys).length

namespace LastCut

variable {before before' : Option Char} {i i' start cut : Nat} {qs ps ys zs : List Piece} {r : Text}

theorem nil : LastCut before i start start [] r [] [] where
  split := rfl
  nest := rfl
  free ms c ns he := absurd he (by simp)
  place := Or.inl ⟨rfl, rfl⟩

/-- Balanced pieces without a stop word in front. -/
theorem skip (h : LastCut before' i' start cut ps r ys zs) (hq : SqlDialect.nest [] qs = some [])
    (hfree : NoStopWord before qs (textOf ps ++ r)) (hb : before' = (textOf qs).getLast?.or before)
    (hi : i' = i + (textOf qs).length) : ∃ ys zs, LastCut before i start cut (qs ++ ps) r ys zs := by
  subst hb
  rcases h.place with ⟨rfl, hcut⟩ | ⟨hend, hcut⟩
  · have hzs : NoStopWord ((textOf qs).getLast?.or before) ps r := by
      have hps : ps = zs := h.split
      rw [hps]
      exact h.free
    refine ⟨[], qs ++ ps, rfl, rfl, ?_, Or.inl ⟨rfl, hcut⟩⟩
    exact hfree.append hq hzs
  · refine ⟨qs ++ ys, zs, by rw [h.split, List.append_assoc], by rw [nest_balanced_append hq, h.nest], ?_,
      Or.inr ⟨?_, ?_⟩⟩
    · rw [textOf_append, List.getLast?_append, Option.or_assoc]
      exact h.free
    · exact hend.append
    · rw [hcut, hi, textOf_append, List.length_append, Nat.add_assoc]

/-- A comment in front. -/
theorem comment {t : Text} (h : LastCut before' i' start cut ps r ys zs) (hb : before' = t.getLast?.or before)
    (hi : i' = i + t.length) : ∃ ys zs, LastCut before i start cut (.region .comment t :: ps) r ys zs := by
  have hq : SqlDialect.nest [] [.region .comment t] = some [] := rfl
  refine h.skip hq (fun ms c ns he _ => ?_) (by simpa [Piece.text] using hb) (by simpa [Piece.text] using hi)
  cases ms <;> simp at he

/-- A character in front with which no stop word starts. -/
theorem code {c : Char} (h : LastCut (some c) (i + 1) start cut ps r ys zs)
    (hq : SqlDialect.nest [] [.code c] = some [])
    (hno : ∀ w ∈ stopWords, startsKeyword w before (c :: (textOf ps ++ r)) = false) :
    ∃ ys zs, LastCut before i start cut (.code c :: ps) r ys zs := by
  refine h.skip hq (fun ms d ns he _ => ?_) rfl rfl
  cases ms with
  | nil =>
    rw [List.nil_append, List.cons.injEq, Piece.code.injEq] at he
    obtain ⟨rfl, rfl⟩ := he
    exact hno
  | cons q ms => simp at he

/-- A stop word in front. -/
theorem word {v w : Text} (h : LastCut before' i' i' cut ps r ys zs) (hw : w ∈ stopWords) (hlen : v.length = w.length)
    (hn : SqlDialect.nest [] (v.map .code) = some []) (hs : startsKeyword w before (v ++ (textOf ps ++ r)) = true)
    (hb : before' = v.getLast?.or before) (hi : i' = i + v.length) :
    ∃ ys zs, LastCut before i start cut (v.map .code ++ ps) r ys zs := by
  have hv : textOf (v.map .code) = v := textOf_map_code v
  rw [← hv] at hb hi
  subst hb
  refine ⟨v.map .code ++ ys, zs, by rw [h.split, List.append_assoc], by rw [nest_balanced_append hn, h.nest], ?_,
    Or.inr ⟨?_, ?_⟩⟩
  · rw [textOf_append, List.getLast?_append, Option.or_assoc]
    exact h.free
  · rcases h.place with ⟨rfl, -⟩ | ⟨hend, -⟩
    · have hps : ps = zs := h.split
      rw [← hps, List.append_nil]
      exact ⟨[], v, w, rfl, hw, hlen, hs⟩
    · exact hend.append
  · rcases h.place with ⟨rfl, hcut⟩ | ⟨-, hcut⟩
    · rw [hcut, hi, List.append_nil]
    · rw [hcut, hi, textOf_append, List.length_append, Nat.add_assoc]

end LastCut

/-- No stop word starts with a quote or a bracket. -/
theorem startsKeyword_delimiter {before : Option Char} {w : Text} {c : Char} (hw : w ∈ stopWords)
    (hc : (isQuote c || isOpener c) = true) (t : Text) : startsKeyword w before (c :: t) = false := by
  rw [Bool.eq_false_iff]
  intro hs
  obtain ⟨h1, h2, -⟩ :=
    neutral_of_class (p := isWord) (by decide) ((stopWordAt hw hs).isWord c List.mem_cons_self)
  rw [h1, h2] at hc
  cases hc

/-- Within a delimiter and what it encloses no stop word stands at the top level. -/
theorem noStopWord_delimiter {c : Char} {rest r : Text} {qs : List Piece} {n : Nat} (before : Option Char)
    (hc : (isQuote c || isOpener c) = true) (h : closingOffset? (c :: rest) = some n)
    (hq : pieces (c :: rest) = qs ++ pieces r) (hlen : (textOf qs).length = n + 1) (x : Text) :
    NoStopWord before qs x := by
  refine noStopWord_iff.mpr (noneLevel_delimiter (fun b d t hd => ?_) hc h hq hlen)
  rw [List.any_eq_false]
  exact fun w hw => by rw [startsKeyword_delimiter hw hd]; exact Bool.false_ne_true

theorem AtOrInComment.le {k i : Nat} {ps : List Piece} (h : AtOrInComment k i ps) : k ≤ i := by
  rcases h with rfl | ⟨-, -, -, h, -⟩
  · exact Nat.le_refl _
  · exact Nat.le_of_lt h

theorem AtOrInComment.append {k i : Nat} {ps : List Piece} (h : AtOrInComment k i ps) (qs : List Piece) :
    AtOrInComment k i (ps ++ qs) := by
  rcases h with rfl | ⟨t, ns, rfl, h1, h2⟩
  · exact Or.inl rfl
  · exact Or.inr ⟨t, ns ++ qs, rfl, h1, h2⟩

/-- A text that starts with a comment in which position `i` lies. -/
theorem AtOrInComment.comment {k i : Nat} {c : Char} {rest : Text} (h : AtOrInComment k i (pieces (c :: rest)))
    (hlt : k < i) : ∃ n, commentTail? c rest = some n ∧ i ≤ k + n := by
  rcases h with rfl | ⟨t, ns, hp, -, h2⟩
  · exact absurd hlt (Nat.lt_irrefl _)
  · obtain ⟨n, hreg, rfl, -⟩ := pieces_eq_region hp
    have hle := lt_of_regionTail? hreg
    rw [List.length_cons, List.length_take, Nat.min_eq_left hle] at h2
    rcases regionTail?_cases hreg with ⟨hkind, -⟩ | ⟨-, hcom⟩
    · cases hkind
    · exact ⟨n, hcom, by omega⟩

/-- In front of a position that is not reached yet pieces are left, unless a comment starts there. -/
theorem AtOrInComment.ne_nil {k i : Nat} {c : Char} {rest r : Text} {xs : List Piece}
    (h : AtOrInComment (k + (textOf xs).length) i (pieces r)) (hp : pieces (c :: rest) = xs ++ pieces r)
    (hlt : ¬ i ≤ k) (hcom : commentTail? c rest = none) : xs ≠ [] := by
  rintro rfl
  rw [List.nil_append] at hp
  rw [← hp] at h
  obtain ⟨n, hn, -⟩ := h.comment (Nat.lt_of_not_le hlt)
  rw [hcom] at hn
  cases hn

theorem AtOrInComment.step {j k i : Nat} {qs ps rs : List Piece}
    (h : AtOrInComment (k + (textOf (qs ++ ps)).length) i rs) (hj : j = k + (textOf qs).length) :
    AtOrInComment (j + (textOf ps).length) i rs := by
  rwa [hj, Nat.add_assoc, ← List.length_append, ← textOf_append]

/-- No quote and no bracket starts a comment. -/
theorem commentTail?_of_delimiter {c : Char} (h : (isQuote c || isOpener c) = true) (rest : Text) :
    commentTail? c rest = none := by
  cases hcom : commentTail? c rest with
  | none => rfl
  | some n =>
    have hr := regionTail?_of_commentTail? hcom
    rcases regionTail?_of_delimiter h rest with hnone | ⟨m, hsome, -⟩
    · rw [hr] at hnone
      cases hnone
    · rw [hr] at hsome
      cases hsome

theorem stopWordCut_of_le {limit i : Nat} (h : limit ≤ i) (before : Option Char) (start : Nat) (rest : Text) :
    stopWordCut limit before i start rest = start := by
  cases rest with
  | nil => rw [stopWordCut]
  | cons c rest => rw [stopWordCut, if_pos h]

/-- A comment that reaches to the limit is the last that is passed over. -/
theorem stopWordCut_end {limit i : Nat} {rest : Text} (h : AtOrInComment i limit (pieces rest)) (before : Option Char)
    (start : Nat) : stopWordCut limit before i start rest = start := by
  rcases Nat.lt_or_ge i limit with hlt | hge
  · cases rest with
    | nil => rw [stopWordCut]
    | cons c rest =>
      obtain ⟨n, hcom, hle⟩ := h.comment hlt
      have hdelim : ¬ (isQuote c || isOpener c) = true := fun hd => by
        rw [commentTail?_of_delimiter hd] at hcom
        cases hcom
      rw [stopWordCut, if_neg (Nat.not_le_of_lt hlt), if_neg hdelim, hcom]
      exact stopWordCut_of_le (Nat.le_succ_of_le hle) ..
  · exact stopWordCut_of_le hge ..

/-- What the search for stop words passes over at the character `c` among balanced pieces: the pieces `qs` of `n + 1`
characters. The last stop word ends behind them, as far as is known, if `cuts` holds. -/
inductive CutStep (before : Option Char) (c : Char) (rest : Text) : (cuts : Bool) → Nat → List Piece → Prop
  | delimiter {n : Nat} {qs : List Piece} (hdelim : (isQuote c || isOpener c) = true)
    (hoff : closingOffset? (c :: rest) = some n) : CutStep before c rest false n qs
  | comment {n : Nat} (hdelim : ¬ (isQuote c || isOpener c) = true) (hcom : commentTail? c rest = some n) :
    CutStep before c rest false n [.region .comment (c :: rest.take n)]
  | word {w : Text} (hdelim : ¬ (isQuote c || isOpener c) = true) (hcom : commentTail? c rest = none)
    (hw : stopWords.find? (startsKeyword · before (c :: rest)) = some w) :
    CutStep before c rest true (w.length - 1) ((c :: rest.take (w.length - 1)).map .code)
  | code (hdelim : ¬ (isQuote c || isOpener c) = true) (hcom : commentTail? c rest = none)
    (hw : stopWords.find? (startsKeyword · before (c :: rest)) = none) : CutStep before c rest false 0 [.code c]

/-- The search goes on behind what it passes over. -/
theorem CutStep.stopWordCut_eq {before : Option Char} {c : Char} {rest : Text} {cuts : Bool} {n : Nat}
    {qs : List Piece} (h : CutStep before c rest cuts n qs) {limit i : Nat} (hlt : i + n < limit) (start : Nat) :
    stopWordCut limit before i start (c :: rest) =
      stopWordCut limit (c :: rest.take n).getLast? (i + n + 1) (if cuts then i + n + 1 else start) (rest.drop n) := by
  rw [stopWordCut, if_neg (by omega)]
  cases h with
  | delimiter hdelim hoff => simp [hdelim, hoff, Option.filter_some, hlt]
  | comment hdelim hcom => simp only [if_neg hdelim, hcom, Bool.false_eq_true, if_false]
  | word hdelim hcom hw => simp only [if_neg hdelim, hcom, hw, if_true]
  | code hdelim hcom hw => simp [hdelim, hcom, hw]

/-- Among balanced pieces the search takes such a step. -/
theorem exists_cutStep (before : Option Char) {c : Char} {rest r : Text} {xs : List Piece}
    (hp : pieces (c :: rest) = xs ++ pieces r) (hne : xs ≠ []) (hn : nest [] xs = some [])
    (hr : r.head?.any isWord = false) :
    ∃ cuts n qs ps, CutStep before c rest cuts n qs ∧ xs = qs ++ ps ∧ textOf qs = c :: rest.take n ∧
      n ≤ rest.length ∧ nest [] qs = some [] ∧ pieces (rest.drop n) = ps ++ pieces r := by
  by_cases hdelim : (isQuote c || isOpener c) = true
  · obtain ⟨n, hclosing⟩ := closing_of_balanced hne hn (Nat.le_refl _)
    obtain ⟨hoff, hin⟩ := hclosing c rest r hp (by simpa using hdelim)
    obtain ⟨qs, ps, rfl, htext, -, hle, hbal, hrest⟩ := delimiter_within hdelim hoff hp hin
    exact ⟨_, n, qs, ps, .delimiter hdelim hoff, rfl, htext, hle, hbal, hrest⟩
  cases hcom : commentTail? c rest with
  | some n =>
    have hreg := regionTail?_of_commentTail? hcom
    obtain ⟨p, ps, rfl⟩ := List.exists_cons_of_ne_nil hne
    rw [pieces_region hreg, List.cons_append, List.cons.injEq] at hp
    obtain ⟨rfl, hrest⟩ := hp
    exact ⟨_, n, _, ps, .comment hdelim hcom, rfl, List.append_nil _, lt_of_regionTail? hreg, rfl, hrest⟩
  | none =>
    cases hw : stopWords.find? (startsKeyword · before (c :: rest)) with
    | some w =>
      have hat := stopWordAt_of_find? hw
      obtain ⟨ps, rfl, hbal, hrest⟩ := stopWord_within hat hp hr
      exact ⟨_, _, _, ps, .word hdelim hcom hw, rfl, textOf_map_code _, hat.le, hbal, hrest⟩
    | none =>
      obtain ⟨ps, rfl, hbal, hrest⟩ := code_within hdelim hcom hp hne hn
      exact ⟨_, 0, _, ps, .code hdelim hcom hw, rfl, rfl, Nat.zero_le _, hbal, hrest⟩

/-- **The last stop word.** Among balanced pieces the search finds the place behind the last stop word at their top
level. -/
theorem stopWordCut_spec {limit : Nat} {before : Option Char} {i start : Nat} {rest r : Text} {xs : List Piece}
    (hp : pieces rest = xs ++ pieces r) (hn : nest [] xs = some [])
    (hl : AtOrInComment (i + (textOf xs).length) limit (pieces r)) (hr : r.head?.any isWord = false) :
    ∃ ys zs, LastCut before i start (stopWordCut limit before i start rest) xs r ys zs := by
  induction hm : rest.length using Nat.strongRecOn generalizing before i start rest xs with
  | ind m ih =>
    subst hm
    by_cases hne : xs = []
    · subst hne
      rw [List.nil_append] at hp
      rw [← hp, textOf_nil, List.length_nil, Nat.add_zero] at hl
      rw [stopWordCut_end hl]
      exact ⟨[], [], .nil⟩
    cases rest with
    | nil => exact absurd (List.append_eq_nil_iff.mp (hp.symm.trans pieces_nil)).1 hne
    | cons c rest =>
      obtain ⟨cuts, n, qs, ps, hstep, rfl, htext, hle, hbal, hrest⟩ := exists_cutStep before hp hne hn hr
      have hlen : (textOf qs).length = n + 1 := by rw [htext, List.length_cons, List.length_take_of_le hle]
      have hlimit := hl.le
      rw [textOf_append, List.length_append, hlen] at hlimit
      rw [hstep.stopWordCut_eq (by omega)]
      have hlast : (c :: rest.take n).getLast? = (textOf qs).getLast?.or before := by
        rw [htext, List.getLast?_eq_some_getLast (List.cons_ne_nil c _), Option.some_or]
      have hi : i + n + 1 = i + (textOf qs).length := by rw [hlen, Nat.add_assoc]
      have hback : rest.drop n = textOf ps ++ r := by
        rw [← textOf_pieces (rest.drop n), hrest, textOf_append, textOf_pieces]
      have hshort : (rest.drop n).length < (c :: rest).length := by
        rw [List.length_drop, List.length_cons]
        omega
      obtain ⟨ys, zs, hcut⟩ := @ih _ hshort (c :: rest.take n).getLast? (i + n + 1) (if cuts then i + n + 1 else start)
        _ ps hrest (nest_rest hn hbal) (hl.step hi) rfl
      cases hstep with
      | delimiter hdelim hoff =>
        have hfront : pieces (c :: rest) = qs ++ pieces (rest.drop n) := by rw [hp, hrest, List.append_assoc]
        exact hcut.skip hbal (noStopWord_delimiter before hdelim hoff hfront hlen _) hlast hi
      | comment => exact hcut.comment (by simpa [Piece.text] using hlast) (by simpa [Piece.text] using hi)
      | word _ _ hw =>
        have hat := stopWordAt_of_find? hw
        rw [textOf_map_code] at hlast hi
        refine hcut.word hat.mem (hat.length_take.trans hat.length.symm) hbal ?_ hlast hi
        rw [← hback, List.cons_append, List.take_append_drop]
        exact hat.starts
      | code _ _ hw =>
        refine hcut.code hbal fun w hmem => ?_
        rw [← hback]
        simpa using List.find?_eq_none.mp hw w hmem

/-! ## The base -/

/-- Does a stop word start at position `i`? -/
def startsStopWord (text : Text) (i : Nat) : Bool :=
  stopWords.any fun w => startsKeyword w (text.take i).getLast? (text.drop i)

/-- What a base stands behind that is followed by the sign at position `signAt`. -/
inductive StandsBehind (T : Text) (signAt : Nat) : List Piece → Prop where
  /-- The start of the text. -/
  | start : StandsBehind T signAt []
  /-- A separator. -/
  | separator (ms : List Piece) {c : Char} : isSeparator c = true → StandsBehind T signAt (ms ++ [.code c])
  /-- A stop word. -/
  | stopWord (ms : List Piece) {v w : Text} : w ∈ stopWords → v.length = w.length →
      startsKeyword w (T.take (textOf ms).length).getLast? (T.drop (textOf ms).length) = true →
      StandsBehind T signAt (ms ++ v.map .code)
  /-- An opening bracket that is not closed before the sign. -/
  | bracket (ms : List Piece) {o : Char} : isOpener o = true →
      (∀ j, findClosing T (textOf ms).length = some j → signAt ≤ j) → StandsBehind T signAt (ms ++ [.code o])

/-- A bracket is not closed among balanced pieces behind it. -/
theorem le_of_findClosing {T : Text} {ms bs rest : List Piece} {o : Char} {j : Nat}
    (hp : pieces T = ms ++ .code o :: (bs ++ rest)) (ho : isOpener o = true) (hn : nest [] bs = some [])
    (h : findClosing T (textOf ms).length = some j) : (textOf (ms ++ .code o :: bs)).length ≤ j := by
  have hcut : pieces T = (ms ++ [.code o]) ++ (bs ++ rest) := by rw [hp]; simp
  have hdrop : T.drop (textOf ms).length = o :: textOf (bs ++ rest) := drop_of_pieces hp rfl
  rw [findClosing, hdrop, closingOffset?, if_neg (by simp [isQuote_of_isOpener ho]), if_pos ho, Option.map_map] at h
  obtain ⟨k, hk, rfl⟩ := Option.map_eq_some_iff.mp h
  obtain ⟨ps, d, qs, hps, rfl, hbal, hd⟩ := closingIn_iff (s := []).mp hk
  rw [pieces_textOf hcut] at hps
  simp only [Function.comp_apply, textOf_append, textOf_cons, Piece.text, List.length_append, List.length_singleton]
  refine Nat.le_of_not_lt fun hlt => ?_
  -- a closing bracket would stand among them without a partner
  rcases append_eq_append_cons hps with ⟨zs, rfl, -⟩ | ⟨zs, rfl, -⟩
  · rw [textOf_append, List.length_append] at hlt
    omega
  · rw [nest_balanced_append hbal] at hn
    obtain ⟨u, hstep, -⟩ := nest_cons_iff.mp hn
    exact absurd (isCloser_of_openerOf? hd) (by simp [hstep.isCloser])

/-- The last stop word of an operand in a text. -/
theorem stopWordCut_operand {T : Text} {as xs qs : List Piece} {signAt : Nat} (hp : pieces T = as ++ (xs ++ qs))
    (hxs : Operand xs) (hat : AtOrInComment (textOf (as ++ xs)).length signAt qs)
    (hqs : (textOf qs).head?.any isWord = false) :
    ∃ ys zs, LastCut (textOf as).getLast? (textOf as).length (textOf as).length (textOf (as ++ ys)).length xs
        (textOf qs) ys zs ∧
      stopWordCut signAt (T.take (textOf as).length).getLast? (textOf as).length (textOf as).length
        (T.drop (textOf as).length) = (textOf (as ++ ys)).length := by
  have hcut : pieces T = (as ++ xs) ++ qs := by rw [hp, List.append_assoc]
  have hfrom : pieces (T.drop (textOf as).length) = xs ++ pieces (textOf qs) := by
    rw [pieces_drop hp, pieces_textOf hcut]
  rw [textOf_append, List.length_append, ← pieces_textOf hcut] at hat
  rw [take_of_pieces hp rfl]
  obtain ⟨ys, zs, hlast⟩ := @stopWordCut_spec _ (textOf as).getLast? (textOf as).length (textOf as).length _ _ _ hfrom
    hxs.nest hat hqs
  have hplace : stopWordCut signAt (textOf as).getLast? (textOf as).length (textOf as).length
      (T.drop (textOf as).length) = (textOf (as ++ ys)).length := by
    rw [textOf_append as ys, List.length_append]
    rcases hlast.place with ⟨rfl, hc⟩ | ⟨-, hc⟩
    · exact hc
    · exact hc
  rw [hplace] at hlast
  exact ⟨ys, zs, hlast, hplace⟩

/-- The characters of a region in front of a position are passed over. -/
theorem boundaryBefore_region {T t : Text} {kind : RegionKind} {ps ns : List Piece} {k : Nat}
    (hp : pieces T = ps ++ .region kind t :: ns) (hk : k ≤ t.length) :
    boundaryBefore (marksBefore T ((textOf ps).length + k)) = boundaryBefore (marksBack ps) := by
  have hlen : (marksOf ps).length = (textOf ps).length := by rw [← map_char_marksOf, List.length_map]
  have hmarks : marksBefore T ((textOf ps).length + k) = ((t.take k).map (⟨·, false⟩)).reverse ++ marksBack ps := by
    rw [marksBefore, marks, hp, marksOf_append, ← hlen, List.take_length_add_append, List.reverse_append, marksOf,
      List.take_append_of_le_length (by rw [List.length_map]; omega), ← List.map_take]
    rfl
  rw [hmarks, boundaryBefore_regions]
  intro m hm
  rw [List.mem_reverse] at hm
  obtain ⟨c, -, rfl⟩ := List.mem_map.mp hm
  rfl

/-- What stands in front of a position between two pieces or in a comment. -/
theorem boundaryBefore_atOrInComment {T : Text} {ps qs : List Piece} {i : Nat} (hp : pieces T = ps ++ qs)
    (hat : AtOrInComment (textOf ps).length i qs) :
    boundaryBefore (marksBefore T i) = boundaryBefore (marksBack ps) := by
  rcases hat with rfl | ⟨t, ns, rfl, h1, h2⟩
  · rw [marksBefore_pieces hp]
  · obtain ⟨k, rfl⟩ := Nat.le.dest (Nat.le_of_lt h1)
    exact boundaryBefore_region hp (by omega)

/-- In front of the base the spaces and comments behind a cut are dropped. -/
theorem front_of_start {T : Text} {signAt : Nat} {base : Base} {FA Fb D M front rest qs : List Piece}
    (hp : pieces T = (FA ++ (Fb ++ D)) ++ qs) (hfront : pieces T = front ++ rest)
    (hat : (textOf (FA ++ (Fb ++ D))).length ≤ signAt) (hb : BasePieces T base FA Fb M)
    (hstart : base.start = min ((textOf front).length + triviaLength (T.drop (textOf front).length)) signAt) :
    ∃ ds, FA = front ++ ds ∧ ∀ p ∈ ds, isTrivia p = true := by
  obtain ⟨ds, hds, hlen, htrivia, -⟩ := pieces_trivia (T.drop (textOf front).length)
  refine ⟨ds, ?_, htrivia⟩
  have hne : (textOf Fb).length ≠ 0 := fun h0 => hb.ne (by rw [← hb.text]; exact List.length_eq_zero_iff.mp h0)
  have hsame : base.start = (textOf (front ++ ds)).length := by
    have hbase := hb.start
    rw [textOf_append front, List.length_append, hlen]
    rw [textOf_append FA, textOf_append Fb, List.length_append, List.length_append] at hat
    omega
  have hcut : pieces T = (front ++ ds) ++
      pieces ((T.drop (textOf front).length).drop (triviaLength (T.drop (textOf front).length))) := by
    rw [List.append_assoc, ← hds, pieces_drop hfront, hfront]
  exact pieces_prefix_unique (hp.trans (List.append_assoc ..)) hcut (by rw [hb.start, hsame])

/-- What stands in front of the last cut of an operand bounds the base. -/
theorem standsBehind_of_bounds {T : Text} {i start cut : Nat} {as xs ys zs qs : List Piece} (has : Bounds as)
    (hp : pieces T = as ++ (xs ++ qs)) (hn : nest [] xs = some [])
    (h : LastCut (textOf as).getLast? i start cut xs (textOf qs) ys zs) :
    StandsBehind T (textOf (as ++ xs)).length (as ++ ys) := by
  rcases h.place with ⟨rfl, -⟩ | ⟨⟨ms, v, w, rfl, hw, hlen, hs⟩, -⟩
  · rw [List.append_nil]
    rcases has with rfl | ⟨ms, c, rfl, hc⟩
    · exact .start
    · rcases hc with hc | hc
      · refine .bracket ms hc fun j hj => ?_
        have hms : pieces T = ms ++ .code c :: (xs ++ qs) := by rw [hp]; simp
        have hle := le_of_findClosing hms hc hn hj
        rwa [List.append_cons] at hle
      · exact .separator ms hc
  · have hms : pieces T = (as ++ ms) ++ (v.map .code ++ (zs ++ qs)) := by rw [hp, h.split]; simp
    rw [← List.append_assoc]
    refine .stopWord (as ++ ms) hw hlen ?_
    rw [take_of_pieces hms rfl, drop_of_pieces hms rfl, textOf_append, List.getLast?_append,
      textOf_append (v.map .code), textOf_map_code, textOf_append zs]
    exact hs

/-- **The base** is an operand, holds no stop word at its top level, and stands behind what bounds it. The sign stands
behind the base, or in a comment there. -/
theorem readBase_spec {T : Text} {signAt stop : Nat} {base : Base} {FA Fb D M qs : List Piece}
    (hq : QuotesClosed T) (hp : pieces T = (FA ++ (Fb ++ D)) ++ (M ++ qs))
    (hat : AtOrInComment (textOf (FA ++ (Fb ++ D))).length signAt M) (hD : ∀ p ∈ D, isTrivia p = true)
    (hM : (textOf (M ++ qs)).head?.any isWord = false) (hb : BasePieces T base FA Fb (D ++ M))
    (h : readBase T signAt stop = .ok base) :
    ∃ front ds : List Piece, FA = front ++ ds ∧ (∀ p ∈ ds, isTrivia p = true) ∧ Operand Fb ∧
      StandsBehind T (textOf (FA ++ (Fb ++ D))).length front ∧ ∀ ms c ns, Fb = ms ++ .code c :: ns →
        nest [] ms = some [] → startsStopWord T (textOf (FA ++ ms)).length = false := by
  obtain ⟨bound, hbound, hbase, -⟩ := readBase_ok h
  rw [boundaryBefore_atOrInComment hp (hat.append qs)] at hbound
  obtain ⟨as, xs, hcut, hxs, has, hstart⟩ :=
    operand_of_boundaryBefore (fun d hd => hq d (by rw [hp]; exact List.mem_append_left _ hd)) hbound
  have hp' : pieces T = as ++ (xs ++ (M ++ qs)) := by rw [hp, hcut, List.append_assoc]
  obtain ⟨ys, zs, hlast, hcutat⟩ := stopWordCut_operand hp' hxs (hcut ▸ hat.append qs) hM
  rw [hstart, baseStart, hcutat] at hbase
  have hcutys : pieces T = (as ++ ys) ++ (zs ++ (M ++ qs)) := by rw [hp', hlast.split]; simp
  obtain ⟨ds, rfl, hds⟩ := front_of_start hp hcutys hat.le hb hbase
  have hbehind := standsBehind_of_bounds has hp' hxs.nest hlast
  rw [← hcut] at hbehind
  obtain rfl : zs = ds ++ (Fb ++ D) := by
    rw [hlast.split] at hcut
    simp only [List.append_assoc, List.append_cancel_left_eq] at hcut
    exact hcut.symm
  have hrest : Operand (Fb ++ D) := by
    have := hlast.split ▸ hxs
    exact (this.right hlast.nest).right (nest_trivia hds)
  have hFb : nest [] Fb = some [] := by
    obtain ⟨t, ht, hend⟩ := nest_prefix hrest.nest
    rw [nest_balanced (nest_trivia hD)] at hend
    rw [ht, hend]
  refine ⟨as ++ ys, ds, rfl, hds, hrest.left hFb, hbehind, ?_⟩
  intro ms c ns he hms
  rw [startsStopWord, List.any_eq_false]
  intro w hw
  have hcutms : pieces T = ((as ++ ys) ++ ds ++ ms) ++ (.code c :: (ns ++ D) ++ (M ++ qs)) := by rw [hp, he]; simp
  have hbal : nest [] (ds ++ ms) = some [] := by rw [nest_balanced_append (nest_trivia hds), hms]
  have hno := hlast.free (ds ++ ms) c (ns ++ D) (by rw [he]; simp) hbal w hw
  rw [take_of_pieces hcutms rfl, drop_of_pieces hcutms rfl, Bool.not_eq_true]
  rw [← Option.or_assoc, ← List.getLast?_append, ← List.getLast?_append] at hno
  simpa [textOf_append, Piece.text, List.append_assoc] using hno

/-- The pieces up to the sign at position `signAt`: what the base stands behind, a gap, the base, and a gap. -/
structure BoundedBase (T : Text) (signAt : Nat) (front gap bs gap' : List Piece) : Prop where
  pieces : ∃ rest, pieces T = front ++ (gap ++ (bs ++ (gap' ++ rest)))
  sign : (textOf (front ++ (gap ++ (bs ++ gap')))).length = signAt
  trivia : ∀ p ∈ gap ++ gap', isTrivia p = true
  operand : Operand bs
  stopWord : ∀ ms c ns, bs = ms ++ .code c :: ns → nest [] ms = some [] →
    startsStopWord T (textOf (front ++ (gap ++ ms))).length = false
  behind : StandsBehind T signAt front

/-- What the sign stands in or starts is no word. -/
theorem head_of_sign {T : Text} {kw signAt : Nat} {sign : Sign} {FJ M : List Piece} {b : Option Char}
    (hp : pieces T = FJ ++ (M ++ pieces (T.drop kw))) (hat : AtOrInComment (textOf FJ).length signAt M)
    (hk : startsKeyword keyword b (T.drop kw) = true) (h : readSign T kw = .ok (sign, signAt)) :
    (textOf (M ++ pieces (T.drop kw))).head?.any isWord = false := by
  rcases hat with hat | ⟨t, ns, rfl, -, -⟩
  · obtain ⟨blanks, -, rfl⟩ := pieces_of_sign hp hat hk h
    cases sign <;> rfl
  · have hfrom := pieces_textOf hp
    cases htext : textOf (.region .comment t :: ns ++ pieces (T.drop kw)) with
    | nil => rfl
    | cons c rest =>
      rw [htext] at hfrom
      obtain ⟨n, hreg, -, -⟩ := pieces_eq_region hfrom
      rcases regionTail?_cases hreg with ⟨hkind, -⟩ | ⟨-, hcom⟩
      · cases hkind
      · rcases mark_of_commentTail? hcom with rfl | rfl | rfl
        all_goals rfl

/-- The base where every quote is closed. The sign stands behind the gap `D`, or in a comment there. -/
theorem locate_base {T : Text} {kw : Nat} {e : Expression} {FS : List Piece} {b : Option Char} (hq : QuotesClosed T)
    (hp : pieces T = FS ++ pieces (T.drop kw)) (hl : (textOf FS).length = kw)
    (hk : startsKeyword keyword b (T.drop kw) = true) (h : locate T kw = .ok e) :
    ∃ front gap FA G Fb D M Qs H : List Piece, Located T e FA G Fb (D ++ M) Qs H ∧
      BoundedBase T (textOf (front ++ (gap ++ (Fb ++ D)))).length front gap Fb D ∧
      pieces T = (front ++ (gap ++ (Fb ++ D))) ++ (M ++ pieces (T.drop kw)) ∧
      AtOrInComment (textOf (front ++ (gap ++ (Fb ++ D)))).length (lastBefore T kw) M ∧
      ∃ stop, innerSpan T kw = some ((textOf (front ++ gap)).length, stop) := by
  obtain ⟨FA, G, Fb, D, M, Qs, H, sign, signAt, base, rfl, hloc, -, hD, hread, hbase, hb, hcut⟩ :=
    locate_split hp hl hk h
  have hp' : pieces T = ((FA ++ G) ++ (Fb ++ D)) ++ (M ++ pieces (T.drop kw)) := by rw [hp]; simp
  have hat : AtOrInComment (textOf ((FA ++ G) ++ (Fb ++ D))).length signAt M := by
    rw [List.append_assoc]
    exact hcut
  obtain ⟨front, gap, hFA, hgap, hoperand, hbehind, hstop⟩ :=
    readBase_spec hq hp' hat hD (head_of_sign hp' hat hk hread) hb hbase
  rw [hFA, List.append_assoc front gap] at hp' hat hbehind
  rw [(readSign_drop hread).1] at hat
  have hspan : ∃ stop, innerSpan T kw = some ((textOf (front ++ gap)).length, stop) := by
    obtain ⟨sign', signAt', base', n, hread', hbase', hterms, -⟩ := locate_ok h
    cases hread.symm.trans hread'
    cases hbase.symm.trans hbase'
    exact ⟨kw + n, by simp only [innerSpan, hread, hbase, hterms, ← hFA, hb.start]⟩
  refine ⟨front, gap, FA, G, Fb, D, M, Qs, H, hloc, ?_, hp', hat, hspan⟩
  exact {
    pieces := ⟨M ++ pieces (T.drop kw), by rw [hp']; simp only [List.append_assoc]⟩
    sign := rfl
    trivia := fun p hp => (List.mem_append.mp hp).elim (hgap p) (hD p)
    operand := hoperand
    stopWord := fun ms c ns he hms => by rw [← List.append_assoc, ← hFA]; exact hstop ms c ns he hms
    behind := hbehind }

/-- **The base of an expression.** If every quote is closed, the keyword is code and the sign in front of it stands in
no comment, the base is balanced, holds neither a separator nor a stop word at its top level, and stands, up to spaces
and comments, behind the start of the text, a separator, a stop word, or a bracket that is open at the sign. Words are
read where they stand in the text. -/
theorem locate_bounded {T : Text} {kw : Nat} {e : Expression} (hq : QuotesClosed T)
    (hcode : regionAt? (regions T) kw = none) (hk : startsKeyword keyword (T.take kw).getLast? (T.drop kw) = true)
    (hsign : ∀ r, regionAt? (regions T) (lastBefore T kw) = some r → r.kind ≠ .comment) (h : locate T kw = .ok e) :
    ∃ front gap bs gap' : List Piece, textOf bs = e.base ∧ BoundedBase T (lastBefore T kw) front gap bs gap' := by
  obtain ⟨FS, hp, hl⟩ := cut_of_keyword hcode hk
  obtain ⟨front, gap, FA, G, Fb, D, M, Qs, H, hloc, hbase, hp', hat, -⟩ := locate_base hq hp hl hk h
  refine ⟨front, gap, Fb, D, hloc.base, ?_⟩
  rcases hat with hat | ⟨t, ns, rfl, h1, h2⟩
  · rwa [hat] at hbase
  · have hregion := regionAt?_piece (i := lastBefore T kw) hp' (Nat.le_of_lt h1) h2
    exact absurd rfl (hsign _ hregion)

/-- The stop word in the brackets does not end the base. -/
theorem locate_bounded_stopWord :
    let T := "where k > 1 and f(a, b and c) /* , */ - interval 2 day".toList
    let e : Expression := ⟨"f(a, b and c)".toList, [⟨.minus, "2".toList, .day⟩], 16, 54⟩
    QuotesClosed T ∧ regionAt? (regions T) 40 = none ∧
      startsKeyword keyword (T.take 40).getLast? (T.drop 40) = true ∧ regionAt? (regions T) (lastBefore T 40) = none ∧
      locate T 40 = .ok e ∧
      ∃ front gap bs gap' : List Piece, textOf bs = e.base ∧ BoundedBase T (lastBefore T 40) front gap bs gap' := by
  intro T e
  have hquotes : QuotesClosed T := by decide +kernel
  have hcode : regionAt? (regions T) 40 = none := by decide +kernel
  have hkeyword : startsKeyword keyword (T.take 40).getLast? (T.drop 40) = true := by decide +kernel
  have hsign : regionAt? (regions T) (lastBefore T 40) = none := by decide +kernel
  have hlocate : locate T 40 = .ok e := eq_ok_of_toOption (by decide +kernel)
  refine ⟨hquotes, hcode, hkeyword, hsign, hlocate, locate_bounded hquotes hcode hkeyword (fun r hr => ?_) hlocate⟩
  rw [hsign] at hr
  cases hr

end SqlDialect.Interval
