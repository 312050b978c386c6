import SqlDialect.Proofs.Interval.Written

/-!
# One step of the conversion

An expression that is found in a text is taken out of it, and its written form is put in its place. The pieces of the
new text are those kept of the old one, with what is written between them.

* `ChainPieces.amounts`: the amounts are whole pieces of the text.
* `step_pieces`: the pieces of the text after a step.
-/

namespace SqlDialect.Interval

/-! ## The amounts -/

/-- The amount of a term with the spaces around it, as it is read in front of the unit. -/
theorem TermPieces.reads_amount {t : Term} {qs : List Piece} {r : Text} (h : TermPieces t qs)
    (hr : Reads (textOf qs) r qs) :
    ∃ ys z, (∀ p ∈ ys, p ∈ qs) ∧ Reads (textOf ys) z ys ∧ z ≠ [] ∧ Text.trim (textOf ys) = t.amount ∧
      t.amount ≠ [] ∧ SqlDialect.nest [] ys = some [] := by
  obtain ⟨v, u, ys, rfl, -, hu, htrim, hamount, hnest, -, -⟩ := h
  refine ⟨ys, textOf (u.map .code) ++ r, fun p hp => by simp [hp], hr.drop.take, ?_, htrim, hamount, hnest⟩
  rw [textOf_map_code]
  intro he
  rw [(List.append_eq_nil_iff.mp he).1] at hu
  have hname : t.unit.name ≠ [] := by cases t.unit <;> rw [TimeUnit.name] <;> decide
  exact hname (List.map_eq_nil_iff.mp hu.symm)

/-- The amounts of the terms that a text is read as. -/
theorem ChainPieces.amounts {ts : List Term} {qs : List Piece} {r : Text} (h : ChainPieces ts qs)
    (hr : Reads (textOf qs) r qs) (hopen : ∀ t ∈ ts, leavesCommentOpen t.amount = false) :
    ∀ t ∈ ts, (∃ pa, AmountPieces qs t pa) ∧ ∀ c ∈ t.amount, c ∈ textOf qs := by
  induction h with
  | nil => simp
  | @cons t ts ds qs rs hne hds hlast ht hchain ih =>
    have hterm : Reads (textOf qs) (textOf rs ++ r) qs := hr.drop.take
    intro t' ht'
    rcases List.mem_cons.mp ht' with rfl | ht'
    · obtain ⟨ys, z, hmem, hys, hz, htrim, hamount, hnest⟩ := ht.reads_amount hterm
      have hclosed := hopen t' List.mem_cons_self
      rw [← htrim] at hclosed
      obtain ⟨ps, hps, hn⟩ := nest_trim hys hz hclosed []
      obtain ⟨s₁, s₂, ps', htext, -, -, hps', hcases⟩ := hys.trim hz hclosed
      obtain rfl := hps.unique hps'
      rw [htrim] at hps
      refine ⟨⟨ps, hps, by rw [hn, hnest], fun s hs => ?_, hamount⟩, fun c hc => ?_⟩
      · -- trimming makes no comment
        have hcomment : Piece.region .comment s ∈ ys := by
          rcases hcases with rfl | ⟨ms, t₁, t₂, -, rfl, rfl⟩
          · simp [hs]
          · simp only [List.mem_append, List.mem_cons, reduceCtorEq, List.not_mem_nil, or_false] at hs
            simp [hs]
        simp [hmem _ hcomment]
      · rw [← htrim] at hc
        have hcy : c ∈ textOf ys := by
          rw [htext]
          exact List.mem_append_left _ (List.mem_append_right _ hc)
        obtain ⟨p, hp, hcp⟩ := List.mem_flatMap.mp hcy
        exact List.mem_flatMap.mpr ⟨p, by simp [hmem p hp], hcp⟩
    · obtain ⟨⟨pa, hpa⟩, hc⟩ := ih hr.drop.drop (fun t ht => hopen t (List.mem_cons_of_mem _ ht)) t' ht'
      refine ⟨⟨pa, hpa.reads, hpa.nest, fun s hs => ?_, hpa.ne⟩, fun c hm => ?_⟩
      · have := hpa.comments s hs
        simp [this]
      · have := hc c hm
        simp [this]

/-! ## What is kept -/

/-- The expression holds no keyword but those of its terms. -/
def Expression.KeywordFree (e : Expression) : Prop :=
  findKeyword keyword none e.base = none ∧ ∀ t ∈ e.terms, findKeyword keyword none t.amount = none

instance (e : Expression) : Decidable e.KeywordFree :=
  inferInstanceAs (Decidable (findKeyword keyword none e.base = none ∧ ∀ t ∈ e.terms, findKeyword keyword none t.amount = none))

namespace Located

variable {T : Text} {e : Expression} {FA G Fb M Qs H : List Piece}

/-- The text as it is cut by an expression. -/
theorem text (h : Located T e FA G Fb M Qs H) :
    T = textOf FA ++ (textOf (G ++ (Fb ++ (M ++ (Qs ++ H)))) ++ T.drop e.stop) := by
  conv => lhs; rw [← textOf_pieces T, h.pieces]
  simp only [textOf_append, textOf_pieces, List.append_assoc]

theorem drop_start (h : Located T e FA G Fb M Qs H) :
    T.drop e.start = textOf (G ++ (Fb ++ (M ++ (Qs ++ H)))) ++ T.drop e.stop := by
  conv => lhs; rw [h.text, ← h.start]
  exact List.drop_left

theorem take_start (h : Located T e FA G Fb M Qs H) : T.take e.start = textOf FA := by
  conv => lhs; rw [h.text, ← h.start]
  exact List.take_left

/-- What is kept in front of the expression. -/
theorem reads_front (h : Located T e FA G Fb M Qs H) : Reads (textOf FA) (T.drop e.start) FA := by
  have hp : SqlDialect.pieces T = FA ++ (G ++ (Fb ++ (M ++ (Qs ++ (H ++ SqlDialect.pieces (T.drop e.stop)))))) := by
    rw [h.pieces]
    simp only [List.append_assoc]
  have := Reads.of_pieces hp
  rw [h.drop_start]
  simpa only [textOf_append, textOf_pieces, List.append_assoc] using this

/-- The terms with what is dropped around them. -/
theorem reads_terms (h : Located T e FA G Fb M Qs H) :
    Reads (textOf (M ++ Qs)) (textOf H ++ T.drop e.stop) (M ++ Qs) := by
  have hp : SqlDialect.pieces T = (FA ++ (G ++ Fb)) ++ ((M ++ Qs) ++ (H ++ SqlDialect.pieces (T.drop e.stop))) := by
    rw [h.pieces]
    simp only [List.append_assoc]
  have := Reads.of_pieces (pieces_textOf hp)
  rwa [textOf_append H, textOf_pieces] at this

theorem base_head (h : Located T e FA G Fb M Qs H) : ∃ c t, T.drop e.start = c :: t ∧ isBlank c = false := by
  have hne : textOf (G ++ Fb) ≠ [] := by
    rw [textOf_append, h.base]
    exact fun he => h.base_ne (List.append_eq_nil_iff.mp he).2
  obtain ⟨c, t, hc⟩ := List.exists_cons_of_ne_nil hne
  have hnext := h.next
  rw [hc] at hnext
  refine ⟨c, t ++ (textOf (M ++ (Qs ++ H)) ++ T.drop e.stop), ?_, hnext⟩
  rw [h.drop_start, ← List.append_assoc, textOf_append, hc]
  simp

/-- The base is read so in front of a comma and of a parenthesis. -/
theorem reads_base (h : Located T e FA G Fb M Qs H) {d : Char} (hd : d = ',' ∨ d = ')') : Reads e.base [d] Fb := by
  have hp : SqlDialect.pieces T = (FA ++ G) ++ (Fb ++ (M ++ (Qs ++ (H ++ SqlDialect.pieces (T.drop e.stop))))) := by
    rw [h.pieces]
    simp only [List.append_assoc]
  have hread := Reads.of_pieces (pieces_textOf hp)
  rw [h.base] at hread
  have hne : textOf (M ++ (Qs ++ (H ++ SqlDialect.pieces (T.drop e.stop)))) ≠ [] := by
    intro he
    have hp' : SqlDialect.pieces T = (FA ++ (G ++ Fb)) ++ (M ++ (Qs ++ (H ++ SqlDialect.pieces (T.drop e.stop)))) := by
      rw [hp]
      simp only [List.append_assoc]
    rw [textOf_append] at he
    have hM := pieces_textOf hp'
    exact h.dropped_ne (textOf_eq_nil hM (List.append_eq_nil_iff.mp he).1)
  apply hread.context hne
  · intro p hl hc
    cases p with
    | code c => cases hc
    | region kind t =>
      cases kind with
      | literal => cases hc
      | comment => exact absurd hl (h.last t)
  · right
    rcases hd with rfl | rfl
    · exact ⟨by simp, by simp, fun hb => absurd hb (by simp; decide)⟩
    · exact ⟨by simp, by simp, fun hb => absurd hb (by simp; decide)⟩
  · intro q hq _ hm
    rw [List.mem_singleton.mp hm] at hq
    rcases hd with rfl | rfl <;> cases hq

theorem free_base (h : Located T e FA G Fb M Qs H) : Free Fb ↔ findKeyword keyword none e.base = none := by
  rw [findKeyword_eq_firstIn, (h.reads_base (Or.inr rfl)).firstIn_alone]
  · rfl
  · intro b x
    rw [Bool.eq_false_iff]
    exact fun hs => not_foreign_of_startsKeyword hs (foreign_of_isName rfl)

/-- What is kept in front of a call, and the base in it. -/
theorem reads_call (h : Located T e FA G Fb M Qs H) :
    Reads (textOf FA ++ (opening ++ e.base)) [','] (FA ++ (opening.map .code ++ Fb)) := by
  have hcall : Reads (opening ++ e.base) [','] (opening.map .code ++ Fb) :=
    (reads_of_isPlain isPlain_opening _).append (h.reads_base (Or.inl rfl))
  refine Reads.append ?_ hcall
  obtain ⟨c, t, hdrop, hblank⟩ := h.base_head
  apply h.reads_front.context
  · rw [hdrop]
    simp
  · intro _ _ _ hc
    rw [hdrop] at hc
    rw [Option.some.inj hc] at hblank
    cases hblank
  · right
    obtain ⟨x, hx, -⟩ := opening_eq
    rw [hx]
    exact ⟨by simp, by simp, fun hb => absurd hb (by simp; decide)⟩
  · intro q hq hm hmem
    have hnot := h.reads_front.not_mem_of_quote hq hm
    rw [h.drop_start] at hnot
    rw [List.append_assoc, List.mem_append, List.mem_append, List.mem_singleton, ← h.base] at hmem
    rcases hmem with hmem | hmem | rfl
    · rw [isQuote_opening q hmem] at hq
      cases hq
    · exact hnot (by simp [hmem])
    · cases hq

theorem front_quote (h : Located T e FA G Fb M Qs H) {q : Char} (hq : isQuote q = true)
    (hm : .code q ∈ FA ++ (opening.map .code ++ Fb)) :
    .code q ∈ SqlDialect.pieces T ∧ q ∉ T.drop e.stop ∧ q ∉ textOf (M ++ Qs) := by
  have hp : SqlDialect.pieces T = (FA ++ (G ++ Fb)) ++ ((M ++ Qs) ++ (H ++ SqlDialect.pieces (T.drop e.stop))) := by
    rw [h.pieces]
    simp only [List.append_assoc]
  have hm' : .code q ∈ FA ++ (G ++ Fb) := by
    rcases List.mem_append.mp hm with hm | hm
    · exact List.mem_append_left _ hm
    · rcases List.mem_append.mp hm with hm | hm
      · obtain ⟨c, hc, he⟩ := List.mem_map.mp hm
        rw [← Piece.code.inj he, isQuote_opening c hc] at hq
        cases hq
      · exact List.mem_append_right _ (List.mem_append_right _ hm)
  have hnot := (Reads.of_pieces hp).not_mem_of_quote hq hm'
  rw [textOf_append, textOf_append H, textOf_pieces] at hnot
  simp only [List.mem_append, not_or] at hnot
  refine ⟨?_, hnot.2.2, fun hx => ?_⟩
  · rw [hp]
    exact List.mem_append_left _ hm'
  · simp only [textOf_append, List.mem_append] at hx
    simp only [textOf_append, List.mem_append, not_or] at hnot
    exact hx.elim hnot.1.1 hnot.1.2

theorem free_call (h : Located T e FA G Fb M Qs H) :
    Free (FA ++ (opening.map .code ++ Fb)) ↔ Free FA ∧ findKeyword keyword none e.base = none := by
  rw [free_front h.front, h.free_base]

end Located

/-! ## The step -/

theorem render_eq (e : Expression) : e.render = opening ++ e.base ++ writtenTerms e.terms := by
  rw [Expression.render, opening, writtenTerms]
  simp only [List.append_assoc]

theorem nest_opening (st : List Char) (qs : List Piece) :
    nest st (opening.map .code ++ qs) = nest ('(' :: st) qs := by
  rw [opening_text, List.map_append, List.append_assoc, nest_word (by decide)]
  exact nest_open rfl st qs

/-- **A step.** The text behind a step is read as what is kept with what is written. No comment arises. A keyword is
in it only if it was in what is kept or in the base or an amount, and it still is if every quote `'` has a partner. Then
what is written leaves the open brackets as they are, if the base does. -/
theorem step_pieces {T : Text} {e : Expression} {FA G Fb M Qs H : List Piece} (h : Located T e FA G Fb M Qs H)
    (hopen : ∀ t ∈ e.terms, leavesCommentOpen t.amount = false) :
    ∃ ps : List Piece, Reads (textOf FA ++ e.render) (T.drop e.stop) ps ∧
      (∀ s, .region .comment s ∈ ps → .region .comment s ∈ pieces T) ∧ (Free FA → e.KeywordFree → Free ps) ∧
      (.code '\'' ∉ pieces T → .code '\'' ∉ ps ∧ (Free ps → Free FA ∧ e.KeywordFree) ∧
        (nest [] Fb = some [] → ∀ st, nest st ps = nest st FA)) := by
  have hamounts := h.chain.amounts h.reads_terms hopen
  have hts : ∀ t ∈ e.terms, ∃ pa, AmountPieces (M ++ Qs) t pa := fun t ht => (hamounts t ht).1
  have hcall := h.reads_call
  have htext : textOf FA ++ (opening ++ e.base) = textOf (FA ++ (opening.map .code ++ Fb)) := hcall.textOf_eq.symm
  have hrender : textOf FA ++ e.render = textOf (FA ++ (opening.map .code ++ Fb)) ++ writtenTerms e.terms := by
    rw [render_eq, ← htext]
    simp only [List.append_assoc]
  have hq : ∀ q, isQuote q = true → .code q ∈ FA ++ (opening.map .code ++ Fb) →
      q ∉ T.drop e.stop ∧ ∀ t ∈ e.terms, q ∉ t.amount := by
    intro q hqq hm
    obtain ⟨-, hstop, hterms⟩ := h.front_quote hqq hm
    exact ⟨hstop, fun t ht hc => hterms ((hamounts t ht).2 q hc)⟩
  have hcomment : ∀ s, .region .comment s ∈ FA ++ (opening.map .code ++ Fb) → .region .comment s ∈ pieces T := by
    intro s hs
    rw [h.pieces]
    simp only [List.mem_append, List.mem_map, reduceCtorEq, and_false, exists_false, false_or] at hs ⊢
    rcases hs with hs | hs <;> simp [hs]
  rw [hrender]
  rw [htext] at hcall
  by_cases hquote : .code '\'' ∈ FA ++ (opening.map .code ++ Fb)
  · obtain ⟨ps, hps, hcomments, hfree⟩ := written_open hcall h.terms.ne_nil hq hquote
    refine ⟨ps, hps, fun s hs => hcomment s (hcomments s hs), fun hFA he => hfree (h.free_call.mpr ⟨hFA, he.1⟩), ?_⟩
    intro hn
    exact absurd (h.front_quote (by decide) hquote).1 hn
  · obtain ⟨ps, hps, hcomments, hquote', hfree, hnest⟩ := written_closed hcall hts h.terms.ne_nil hq hquote
    refine ⟨ps, hps, fun s hs => ?_, fun hFA he => hfree.mpr ⟨h.free_call.mpr ⟨hFA, he.1⟩, he.2⟩,
      fun _ => ⟨hquote', ?_, fun hFb st => ?_⟩⟩
    · rcases hcomments s hs with hs | hs
      · exact hcomment s hs
      · rw [h.pieces]
        simp only [List.mem_append] at hs ⊢
        rcases hs with hs | hs <;> simp [hs]
    · intro hf
      obtain ⟨hbs, hamount⟩ := hfree.mp hf
      obtain ⟨hFA, hbase⟩ := h.free_call.mp hbs
      exact ⟨hFA, hbase, hamount⟩
    · rw [hnest, nest_append]
      cases nest st FA with
      | none => rfl
      | some st' =>
        rw [Option.bind_some, nest_opening, nest_balanced hFb]
        exact nest_closer rfl st' []

end SqlDialect.Interval
