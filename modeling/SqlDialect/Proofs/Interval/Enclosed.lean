import SqlDialect.Proofs.Interval.Bounded
import SqlDialect.Proofs.Interval.Step

/-!
# Expressions that stand by themselves

The call written for an interval expression is meant to stand by itself: what is written around the base and the
amounts is code, and the parenthesis behind the function's name is closed at its end. The comments at the end of the
base are dropped, so the base leaves none open. The amounts are only trimmed. Trimming takes away the line break at the
end of a line comment, and then what is written behind the amount falls into the comment.

* `selfContained_of_balanced`, `balanced_of_selfContained`: what a call that stands by itself is made of.
* `selfContained_iff_amounts`: the call stands by itself exactly if the base is balanced and no amount leaves a comment
  open; the base is balanced where every quote is closed.
-/

namespace SqlDialect.Interval

namespace Expression

/-- The written form, where the base is read as `bs` and the amounts as `pss`. -/
def writtenPieces (e : Expression) (bs : List Piece) (pss : List (List Piece)) : List Piece :=
  opening.map .code ++ (bs ++ (modifiersPieces e.terms pss ++ [.code ')']))

/-- The call written for an expression stands by itself. -/
structure SelfContained (e : Expression) : Prop where
  /-- Whatever follows, the text around the base and the amounts is read as it is meant. -/
  added : ∃ bs pss, textOf bs = e.base ∧ pss.map textOf = e.terms.map (·.amount) ∧
    ∀ r, Reads e.render r (e.writtenPieces bs pss)
  /-- The parenthesis behind the function's name is closed by the last character. -/
  closed : findClosing e.render functionName.length = some (e.render.length - 1)

/-- The base, read in front of a comma, is balanced. -/
def BaseBalanced (e : Expression) : Prop := ∃ bs, Reads e.base [','] bs ∧ nest [] bs = some []

end Expression

/-! ## The amounts -/

/-- The amount in a modifier that is read as it is meant leaves no comment open. -/
theorem closed_of_modifier {t : Term} {ps : List Piece} {a r : Text} (ht : textOf ps = t.amount)
    (h : Reads a r (t.modifierPieces ps)) : leavesCommentOpen t.amount = false := by
  by_cases htok : isToken t.amount = true
  · exact closed_of_reads (reads_token htok [')'])
  · have hnum : ¬ isNumeral t.amount = true := fun hnum => htok (isToken_of_isNumeral hnum)
    -- a parenthesis stands behind the amount
    obtain ⟨bs, hback⟩ : ∃ bs, t.back = .code ')' :: bs := by
      rw [Term.back, if_neg hnum, Bool.eq_false_iff.mpr htok]
      cases t.sign <;> exact ⟨_, rfl⟩
    have hread := h.drop.drop.take
    rw [ht, hback] at hread
    exact closed_of_parenthesis hread

theorem closed_of_modifiers {ts : List Term} {pss : List (List Piece)} {a r : Text}
    (hts : pss.map textOf = ts.map (·.amount)) (h : Reads a r (modifiersPieces ts pss)) :
    ∀ t ∈ ts, leavesCommentOpen t.amount = false := by
  induction ts generalizing pss a with
  | nil => simp
  | cons t ts ih =>
    cases pss with
    | nil => simp at hts
    | cons ps pss =>
      rw [List.map_cons, List.map_cons, List.cons.injEq] at hts
      rw [modifiersPieces] at h
      intro t' ht'
      rcases List.mem_cons.mp ht' with rfl | ht'
      · exact closed_of_modifier hts.1 h.take
      · exact ih hts.2 h.drop t' ht'

/-! ## The written form -/

/-- The parenthesis behind the function's name is closed by the last one exactly if what stands between is balanced. -/
theorem closed_iff_nest {e : Expression} {bs : List Piece} {pss : List (List Piece)}
    (h : Reads e.render [] (e.writtenPieces bs pss)) :
    findClosing e.render functionName.length = some (e.render.length - 1) ↔
      nest [] (bs ++ modifiersPieces e.terms pss) = some [] := by
  have hopening : opening = functionName ++ ['('] := by rw [opening]
  have hpieces : pieces e.render = functionName.map .code ++
      .code '(' :: ((bs ++ modifiersPieces e.terms pss) ++ [.code ')']) := by
    rw [Reads, List.append_nil, pieces_nil, List.append_nil, Expression.writtenPieces, hopening] at h
    rw [h]
    simp
  exact findClosing_last_iff hpieces (by rw [textOf_map_code]) rfl

/-- The modifiers are written behind the base. -/
theorem textOf_modifiersPieces {e : Expression} {bs : List Piece} {pss : List (List Piece)} {r : Text}
    (h : Reads e.render r (e.writtenPieces bs pss)) (hbs : textOf bs = e.base) :
    textOf (modifiersPieces e.terms pss) = e.terms.flatMap fun t => [',', ' '] ++ t.modifier := by
  have htext := h.textOf_eq
  rw [Expression.writtenPieces, render_eq, writtenTerms] at htext
  simp only [textOf_append, textOf_map_code, hbs, List.append_assoc, List.append_cancel_left_eq] at htext
  exact List.append_cancel_right htext

/-- A comma stands behind the base. -/
theorem head_modifiers {ts : List Term} (h : ts ≠ []) :
    ∃ x, (ts.flatMap fun t => [',', ' '] ++ t.modifier) = ',' :: x := by
  obtain ⟨t, ts, rfl⟩ := List.exists_cons_of_ne_nil h
  exact ⟨_, rfl⟩

section Located

variable {T : Text} {e : Expression} {FA G Fb M Qs H : List Piece}

/-- A balanced base and amounts that leave no comment open are closed in. -/
theorem selfContained_of_balanced (h : Located T e FA G Fb M Qs H) (hbase : e.BaseBalanced)
    (hopen : ∀ t ∈ e.terms, leavesCommentOpen t.amount = false) : e.SelfContained := by
  obtain ⟨bs, hbs, hnest⟩ := hbase
  have hamounts := h.chain.amounts h.reads_terms hopen
  obtain ⟨pss, hpss⟩ := exists_modifiersRead fun t ht => (hamounts t ht).1
  have hread : ∀ r, Reads e.render r (e.writtenPieces bs pss) := by
    intro r
    have hclose : Reads [')'] r [.code ')'] := reads_of_isPlain rfl r
    have hterms : Reads (writtenTerms e.terms) r (modifiersPieces e.terms pss ++ [.code ')']) :=
      (hpss.reads _).append hclose
    obtain ⟨x, hx⟩ := head_modifiers h.terms.ne_nil
    have hfront : Reads e.base (writtenTerms e.terms ++ r) bs := by
      rw [writtenTerms, hx]
      refine hbs.delimited (Or.inl rfl) fun q hq hm => ?_
      rw [isQuote_of_nest hnest hm] at hq
      cases hq
    rw [render_eq, List.append_assoc]
    exact (reads_of_isPlain isPlain_opening _).append (hfront.append hterms)
  refine ⟨⟨bs, pss, hbs.textOf_eq, hpss.amounts, hread⟩, (closed_iff_nest (hread [])).mpr ?_⟩
  rw [nest_balanced_append hnest, hpss.nest]

/-- What is closed in is a balanced base and amounts that leave no comment open. -/
theorem balanced_of_selfContained (h : Located T e FA G Fb M Qs H) (he : e.SelfContained) :
    e.BaseBalanced ∧ ∀ t ∈ e.terms, leavesCommentOpen t.amount = false := by
  obtain ⟨⟨bs, pss, hbs, hpss, hread⟩, hclosed⟩ := he
  have hterms := (hread []).drop.drop.take
  have hopen := closed_of_modifiers hpss hterms
  refine ⟨⟨bs, ?_, ?_⟩, hopen⟩
  · obtain ⟨x, hx⟩ := head_modifiers h.terms.ne_nil
    have hbase := (hread []).drop.take
    rw [hbs, textOf_append, textOf_modifiersPieces (hread []) hbs, hx] at hbase
    exact hbase.delimited (Or.inl rfl) (by simp)
  · -- the modifiers are balanced, so the base is too
    have hamounts := h.chain.amounts h.reads_terms hopen
    obtain ⟨qss, hqss⟩ := exists_modifiersRead fun t ht => (hamounts t ht).1
    rw [textOf_modifiersPieces (hread []) hbs] at hterms
    have hbalanced := hqss.nest
    rw [← hterms.unique (hqss.reads _)] at hbalanced
    obtain ⟨s, hs, hrest⟩ := nest_prefix ((closed_iff_nest (hread [])).mp hclosed)
    rw [nest_balanced hbalanced] at hrest
    rw [hs, hrest]

end Located

/-! ## All expressions -/

/-- **An expression stands by itself** exactly if its base is balanced and none of its amounts leaves a comment open.
The base is balanced where every quote of the text is closed. -/
theorem selfContained_iff_amounts {T : Text} {kw : Nat} {e : Expression} (hcode : regionAt? (regions T) kw = none)
    (hk : startsKeyword keyword (T.take kw).getLast? (T.drop kw) = true) (h : locate T kw = .ok e) :
    (e.SelfContained ↔ e.BaseBalanced ∧ ∀ t ∈ e.terms, leavesCommentOpen t.amount = false) ∧
      (QuotesClosed T → e.BaseBalanced) := by
  obtain ⟨FS, hp, hl⟩ := cut_of_keyword hcode hk
  obtain ⟨FA, G, Fb, M, Qs, H, -, hloc⟩ := locate_pieces hp hl hk h
  refine ⟨⟨balanced_of_selfContained hloc, fun he => selfContained_of_balanced hloc he.1 he.2⟩, fun hq => ?_⟩
  obtain ⟨_, _, _, _, bs, _, _, _, _, hbase, hbounded, -⟩ := locate_base hq hp hl hk h
  exact ⟨bs, hbase.reads_base (Or.inl rfl), hbounded.operand.nest⟩

/-- A line comment at the end of an amount takes in the rest of the call, once its line break is trimmed. -/
theorem not_selfContained_amount :
    let T := "select t + interval 1 # x\n second".toList
    let e : Expression := ⟨"t".toList, [⟨.plus, "1 # x".toList, .second⟩], 7, 33⟩
    regionAt? (regions T) 11 = none ∧ startsKeyword keyword (T.take 11).getLast? (T.drop 11) = true ∧
      locate T 11 = .ok e ∧ QuotesClosed T ∧ e.render = "datetime(t, (1 # x) || ' seconds')".toList ∧
      findClosing e.render functionName.length = none ∧ e.BaseBalanced ∧ ¬ e.SelfContained := by
  intro T e
  have hcode : regionAt? (regions T) 11 = none := by decide +kernel
  have hkeyword : startsKeyword keyword (T.take 11).getLast? (T.drop 11) = true := by decide +kernel
  have hlocate : locate T 11 = .ok e := eq_ok_of_toOption (by decide +kernel)
  have hquotes : QuotesClosed T := by decide +kernel
  obtain ⟨hiff, hbase⟩ := selfContained_iff_amounts hcode hkeyword hlocate
  refine ⟨hcode, hkeyword, hlocate, hquotes, by decide +kernel, by decide +kernel, hbase hquotes, fun he => ?_⟩
  have hclosed := (hiff.mp he).2 ⟨.plus, "1 # x".toList, .second⟩ List.mem_cons_self
  have hleaves : leavesCommentOpen "1 # x".toList = true := by decide +kernel
  rw [hleaves] at hclosed
  cases hclosed

end SqlDialect.Interval
