import SqlDialect.Proofs.Interval.Bounded
import SqlDialect.Proofs.Interval.Run

/-!
# Expressions in well-formed texts

In a well-formed text the base of an interval expression is an operand, and the brackets of the expression match. So
the text stays well-formed where an expression is replaced by its written form.

* `operand_split`: the operand in front of a place, and its boundary.
* `locate_balanced`: an expression that is found is made of balanced pieces.
* `At.balanced`: a step of the conversion leads from one well-formed text to another.
* `Run.wellFormed`: so does a run.
-/

namespace SqlDialect.Interval

/-! ## The parts of an expression -/

theorem nest_blanks {bl : Text} (h : ∀ c ∈ bl, isBlank c = true) (s : List Char) (qs : List Piece) :
    nest s (bl.map .code ++ qs) = nest s qs :=
  nest_spaces (fun c hc => isSpace_of_isBlank (h c hc)) s qs

theorem nest_sign (sign : Sign) (s : List Char) (qs : List Piece) : nest s (.code sign.char :: qs) = nest s qs := by
  cases sign <;> rfl

theorem isWord_unit (unit : TimeUnit) : ∀ c ∈ unit.name, isWord c = true := by
  cases unit <;> rw [TimeUnit.name] <;> decide

theorem TermPieces.nest {t : Term} {qs : List Piece} (h : TermPieces t qs) : SqlDialect.nest [] qs = some [] := by
  obtain ⟨v, u, ys, rfl, hv, hu, -, -, hys, -, -⟩ := h
  have hunit := nest_word (isWord_of_lower_eq hu (isWord_unit t.unit)) [] []
  rw [List.append_nil] at hunit
  rw [nest_word (isWord_of_lower_eq hv isWord_keyword), nest_balanced_append hys, hunit, nest_nil]

theorem FurtherTerms.nest {ts : List Term} {qs : List Piece} (h : FurtherTerms ts qs) :
    SqlDialect.nest [] qs = some [] := by
  induction h with
  | nil => rfl
  | cons hds hes _ ht _ ih =>
    rw [nest_balanced_append (nest_trivia hds), nest_sign, nest_balanced_append (nest_trivia hes),
      nest_balanced_append ht.nest, ih]

theorem TermsPieces.nest {ts : List Term} {qs : List Piece} (h : TermsPieces ts qs) :
    SqlDialect.nest [] qs = some [] := by
  obtain ⟨t, ts', as, bs, -, rfl, ht, hts⟩ := h
  rw [nest_balanced_append ht.nest, hts.nest]

/-- Balanced pieces in a parenthesis that is dropped with them, or in none. -/
theorem Encloses.nest {G H ps : List Piece} (h : Encloses G H) (hps : SqlDialect.nest [] ps = some []) :
    SqlDialect.nest [] (G ++ (ps ++ H)) = some [] := by
  rcases h with ⟨rfl, rfl⟩ | ⟨ds, bl, rfl, rfl, hds, hbl⟩
  · rwa [List.nil_append, List.append_nil]
  · rw [List.cons_append, nest_open rfl, nest_balanced_append (nest_trivia hds), nest_balanced_append hps,
      nest_blanks hbl]
    rfl

/-! ## The base -/

/-- The operand in front of a place in a well-formed text, and its boundary, with nothing or a comma in front of all. -/
theorem operand_split {T : Text} {FJ qs : List Piece} (hT : WellFormed T) (hp : pieces T = FJ ++ qs) :
    ∃ (as xs : List Piece) (bound : Boundary), FJ = as ++ xs ∧ Operand xs ∧ bound.start = (textOf as).length ∧
      ∀ before, before = [] ∨ before.head? = some ⟨',', true⟩ →
        boundaryBefore (marksBack FJ ++ before) = .ok (bound.shift before.length) := by
  obtain ⟨s, hs, -⟩ := nest_prefix (hp ▸ hT.nest)
  obtain ⟨as, xs, rfl, hxs, has⟩ := exists_operand hs
  have hquote : ∀ c, .code c ∈ as → isQuote c = false := fun c hc =>
    isQuote_of_nest hT.nest (by rw [hp]; exact List.mem_append_left _ (List.mem_append_left _ hc))
  obtain ⟨bound, hstart, hbound⟩ := boundaryBefore_bounds has hquote
  refine ⟨as, xs, bound, rfl, hxs, hstart, fun before hb => ?_⟩
  rw [marksBack_append, List.append_assoc, boundaryBefore_operand hxs, hbound before hb]

theorem Boundary.shift_zero (b : Boundary) : b.shift 0 = b := by
  cases b <;> simp [Boundary.shift]

/-- **The brackets of an expression match.** -/
theorem locate_balanced {T : Text} {kw : Nat} {e : Expression} {FS : List Piece} {b : Option Char} (hT : WellFormed T)
    (hp : pieces T = FS ++ pieces (T.drop kw)) (hl : (textOf FS).length = kw)
    (hk : startsKeyword keyword b (T.drop kw) = true) (h : locate T kw = .ok e) :
    ∃ FA G Fb M Qs H, FS = FA ++ (G ++ (Fb ++ M)) ∧ Located T e FA G Fb M Qs H ∧ Operand Fb ∧
      nest [] (G ++ (Fb ++ (M ++ (Qs ++ H)))) = some [] := by
  obtain ⟨FA, G, Fb, D, M, Qs, H, sign, signAt, base, rfl, hloc, hshape, hD, hsign, hbase, hb, hcut⟩ :=
    locate_split hp hl hk h
  have hp' : pieces T = (FA ++ (G ++ (Fb ++ D))) ++ (M ++ pieces (T.drop kw)) := by rw [hp]; simp
  have hat : (textOf (FA ++ (G ++ (Fb ++ D)))).length = signAt := by
    rcases hcut with hcut | ⟨t, M', rfl, -⟩
    · exact hcut
    · exact absurd (by rw [hp']; simp) (hT.comment t)
  obtain ⟨blanks, hblanks, rfl⟩ := pieces_of_sign hp' hat hk hsign
  have hsign' : (textOf (.code sign.char :: blanks.map .code ++ pieces (T.drop kw))).head?.any isWord = false := by
    cases sign <;> rfl
  have hFb : Operand Fb := by
    have hassoc : FA ++ (G ++ (Fb ++ D)) = (FA ++ G) ++ (Fb ++ D) := by simp
    rw [hassoc] at hp' hat
    obtain ⟨-, -, -, -, hoperand, -⟩ := readBase_spec (quotesClosed_of_nest hT.nest) hp' (Or.inl hat) hD hsign' hb hbase
    exact hoperand
  refine ⟨FA, G, Fb, D ++ .code sign.char :: blanks.map .code, Qs, H, rfl, hloc, hFb, ?_⟩
  have hinner : nest [] (Fb ++ ((D ++ .code sign.char :: blanks.map .code) ++ Qs)) = some [] := by
    rw [nest_balanced_append hFb.nest, List.append_assoc, nest_balanced_append (nest_trivia hD), List.cons_append,
      nest_sign, nest_blanks hblanks, hloc.terms.nest]
  have := hshape.nest hinner
  simpa only [List.append_assoc] using this

/-! ## A step -/

/-- Where no comment stands, no amount leaves one open. -/
theorem ChainPieces.closed {ts : List Term} {qs : List Piece} {r : Text} (h : ChainPieces ts qs)
    (hr : Reads (textOf qs) r qs) (hc : ∀ s, .region .comment s ∉ qs) :
    ∀ t ∈ ts, leavesCommentOpen t.amount = false := by
  induction h with
  | nil => simp
  | @cons t ts ds qs rs hne hds hlast ht hchain ih =>
    intro t' ht'
    rcases List.mem_cons.mp ht' with rfl | ht'
    · have hterm : Reads (textOf qs) (textOf rs ++ r) qs := hr.drop.take
      obtain ⟨ys, z, hmem, hys, hz, htrim, -, -⟩ := ht.reads_amount hterm
      rw [← htrim]
      exact hys.closed_trim hz fun s hs => hc s (by simp [hmem _ hs])
    · exact ih hr.drop.drop (fun s hs => hc s (by simp [hs])) t' ht'

theorem Located.closed {T : Text} {e : Expression} {FA G Fb M Qs H : List Piece} (h : Located T e FA G Fb M Qs H)
    (hc : ∀ s, .region .comment s ∉ SqlDialect.pieces T) : ∀ t ∈ e.terms, leavesCommentOpen t.amount = false := by
  apply h.chain.closed h.reads_terms
  intro s hs
  refine hc s (h.mem_pieces ?_)
  rcases List.mem_append.mp hs with hs | hs <;> simp [hs]

/-- **A step.** Behind it stands again a place between two pieces of a well-formed text. -/
theorem At.balanced {done rest : Text} {ps : List Piece} {n : Nat} {e : Expression} (h : At done rest ps)
    (hT : WellFormed (done ++ rest)) (hk : findKeyword keyword done.getLast? rest = some n)
    (he : locate (done ++ rest) (done.length + n) = .ok e) :
    ∃ qs, At ((done ++ rest).take e.start ++ e.render) ((done ++ rest).drop e.stop) qs ∧
      WellFormed ((done ++ rest).take e.start ++ e.render ++ (done ++ rest).drop e.stop) := by
  obtain ⟨ms, b, hp, hl, hb, -⟩ := h.skip hk
  obtain ⟨FA, G, Fb, M, Qs, H, -, hloc, hFb, hbal⟩ := locate_balanced hT hp hl hb he
  obtain ⟨qs, hqs, hcomment, -, hclean⟩ := step_pieces hloc (hloc.closed hT.comment)
  have hquote : .code '\'' ∉ pieces (done ++ rest) := fun hm => by
    have := isQuote_of_nest hT.nest hm
    cases this
  obtain ⟨-, -, hnest⟩ := hclean hquote
  rw [hloc.take_start]
  refine ⟨qs, at_render hqs, ⟨fun t ht => hT.comment t ((hloc.mem_step hqs ht).elim (hcomment t) id), ?_⟩⟩
  have hwhole := hT.nest
  have hsplit : pieces (done ++ rest) =
      FA ++ ((G ++ (Fb ++ (M ++ (Qs ++ H)))) ++ pieces ((done ++ rest).drop e.stop)) := by
    rw [hloc.pieces]
    simp
  rw [hsplit, nest_append] at hwhole
  simp only [nest_balanced_append hbal] at hwhole
  rw [hqs, nest_append, hnest hFb.nest]
  exact hwhole

/-- **A run.** It leads from a well-formed text to another. -/
theorem Run.wellFormed {done rest out : Text} {es : List Expression} {ps : List Piece} (h : Run done rest es out)
    (hat : At done rest ps) (hT : WellFormed (done ++ rest)) : WellFormed out := by
  induction h generalizing ps with
  | stop => exact hT
  | step hk he _ ih =>
    obtain ⟨qs, hqs, hT'⟩ := hat.balanced hT hk he
    exact ih hqs hT'

/-- The conversion of a well-formed text is well-formed. -/
theorem wellFormed_convert {text out : Text} (hT : WellFormed text) (h : convert text = .ok out) : WellFormed out :=
  (run_convert h).wellFormed (at_start text) hT

end SqlDialect.Interval
