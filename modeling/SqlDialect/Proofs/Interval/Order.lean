import SqlDialect.Proofs.Words
import SqlDialect.Proofs.Interval.Run

/-!
# The order of names in interval expressions

The conversion takes out of a text only words of its own, such as the keyword and the units, and it writes only words
of its own. All other names stay, in the order in which they stand, as long as none of them stands in a comment.

* `Located.occurrences_text`, `Located.occurrences_render`: the names of the text, before and after a step.
* `occurrences_convert`: the names of a converted text are those of the text, in their order.
-/

namespace SqlDialect.Interval

/-! ## Names that the conversion does not use -/

/-- The words that the conversion reads and writes. -/
def ownWords : List Text := keyword :: stopWords ++ TimeUnit.all.flatMap fun unit => [unit.name, unit.plural]

/-- Is the name neither a word of the conversion nor a longer one that ends with the function's name? Behind a stop
word the function's name may be written without a blank. -/
def Fresh (name : Text) : Prop := Text.lower name ∉ ownWords ∧ ¬ functionName <:+ name

instance (name : Text) : Decidable (Fresh name) :=
  inferInstanceAs (Decidable (Text.lower name ∉ ownWords ∧ ¬ functionName <:+ name))

theorem ownWords_spec : ∀ w ∈ ownWords, (∀ c ∈ w, isName c = true) ∧ Text.lower w = w := by decide +kernel

theorem name_mem_ownWords (unit : TimeUnit) : unit.name ∈ ownWords ∧ unit.plural ∈ ownWords := by
  cases unit <;> decide +kernel

section Fresh

variable {names : List Text} {v w : Text}

/-- A word of the conversion is no fresh name, in no letter case. -/
theorem occurrences_own (hf : ∀ x ∈ names, Fresh x) (hw : w ∈ ownWords) (hv : Text.lower v = Text.lower w) :
    occurrences names v = [] := by
  obtain ⟨hname, hlower⟩ := ownWords_spec w hw
  apply occurrences_name (isName_of_lower_eq hv hname)
  intro hm
  refine (hf v hm).1 ?_
  rw [hv, hlower]
  exact hw

theorem isName_functionName : ∀ c ∈ functionName, isName c = true := by rw [functionName]; decide

/-- A name that ends with the function's name is not fresh. -/
theorem occurrences_functionName (hf : ∀ x ∈ names, Fresh x) (hv : ∀ c ∈ v, isName c = true) :
    occurrences names (v ++ functionName) = [] := by
  apply occurrences_name
  · intro c hc
    rcases List.mem_append.mp hc with hc | hc
    · exact hv c hc
    · exact isName_functionName c hc
  · intro hm
    exact (hf _ hm).2 (List.suffix_append v functionName)

/-! ## What is dropped and what is kept -/

/-- Dropped pieces hold no name, if their comments hold none. -/
theorem occurrences_dropped {T : Text} {ds : List Piece} (hds : ∀ p ∈ ds, isDropped p = true)
    (hm : ∀ p ∈ ds, p ∈ pieces T) (hc : ∀ t, .region .comment t ∈ ds → occurrences names t = []) :
    occurrences names (textOf ds) = [] := by
  induction ds with
  | nil => exact occurrences_nil
  | cons p ds ih =>
    have hhead := head_dropped (fun p hp => hds p (List.mem_cons_of_mem _ hp))
      fun p hp => hm p (List.mem_cons_of_mem _ hp)
    rw [textOf_cons, occurrences_append (Or.inr hhead), ih (fun p hp => hds p (List.mem_cons_of_mem _ hp))
      (fun p hp => hm p (List.mem_cons_of_mem _ hp)) fun t ht => hc t (List.mem_cons_of_mem _ ht), List.append_nil]
    have hp := hds p List.mem_cons_self
    cases p with
    | code c =>
      apply occurrences_eq_nil
      intro d hd
      rw [List.mem_singleton.mp hd]
      exact isName_of_isDropped hp
    | region kind t =>
      cases kind with
      | literal => cases hp
      | comment => exact hc t List.mem_cons_self

theorem ChainPieces.head {T : Text} {ts : List Term} {qs : List Piece} (h : ChainPieces ts qs)
    (hm : ∀ p ∈ qs, p ∈ pieces T) : (textOf qs).head?.any isName = false := by
  cases h with
  | nil => rfl
  | @cons t ts ds qs rs hne hds hlast ht hchain =>
    rw [textOf_append]
    exact head_dropped_append hne hds (fun p hp => hm p (List.mem_append_left _ hp)) _

/-- A term holds the names of its amount. -/
theorem TermPieces.occurrences {t : Term} {qs : List Piece} (hf : ∀ x ∈ names, Fresh x) (h : TermPieces t qs) :
    occurrences names (textOf qs) = SqlDialect.occurrences names t.amount := by
  obtain ⟨v, u, ys, rfl, hv, hu, htrim, hne, -, hhead, hlast⟩ := h
  have hys : textOf ys ≠ [] := fun he => by
    rw [he] at htrim
    exact hne htrim.symm
  obtain ⟨c, x, hx⟩ := List.exists_cons_of_ne_nil hys
  have hhead' : (textOf (ys ++ u.map .code)).head?.any isWord = false := by
    rw [textOf_append, hx]
    rw [hx] at hhead
    exact hhead
  have hkeyword : SqlDialect.occurrences names v = [] := occurrences_own hf (by simp [ownWords]) hv
  have hunit : SqlDialect.occurrences names u = [] := occurrences_own hf (name_mem_ownWords t.unit).1 hu
  rw [textOf_append, occurrences_append (nameBreak_of_head hhead' _), textOf_append,
    occurrences_append (nameBreak_of_last hlast _), textOf_map_code, textOf_map_code, hkeyword, hunit, List.nil_append,
    List.append_nil, ← htrim, occurrences_trim]

/-- Terms hold the names of their amounts. -/
theorem ChainPieces.occurrences {T : Text} {ts : List Term} {qs : List Piece} (hf : ∀ x ∈ names, Fresh x)
    (h : ChainPieces ts qs) (hm : ∀ p ∈ qs, p ∈ pieces T)
    (hc : ∀ t, .region .comment t ∈ qs → SqlDialect.occurrences names t = []) :
    SqlDialect.occurrences names (textOf qs) = ts.flatMap fun t => SqlDialect.occurrences names t.amount := by
  induction h with
  | nil => simp
  | @cons t ts ds qs rs hne hds hlast ht hchain ih =>
    have hmr : ∀ p ∈ rs, p ∈ pieces T := fun p hp => hm p (by simp [hp])
    rw [textOf_append, occurrences_append (nameBreak_of_last hlast _),
      occurrences_dropped hds (fun p hp => hm p (by simp [hp])) fun t ht => hc t (by simp [ht]), List.nil_append,
      textOf_append, occurrences_append (Or.inr (hchain.head hmr)), ht.occurrences hf,
      ih hmr fun t ht => hc t (by simp [ht]), List.flatMap_cons]

/-! ## What is written -/

/-- The written form of a term holds the names of its amount. -/
theorem occurrences_modifier (hf : ∀ x ∈ names, Fresh x) (t : Term) :
    occurrences names t.modifier = occurrences names t.amount := by
  have hsign : isName t.sign.char = false := by cases t.sign <;> decide
  have hvalue : occurrences names t.value = occurrences names t.amount := by
    have hparen : ∀ a : Text, occurrences names (['('] ++ a ++ [')']) = occurrences names a := fun a => by
      rw [occurrences_append_right (by decide), occurrences_append_left (by decide)]
    rw [Term.value]
    split
    · refine occurrences_append_left (fun c hc => ?_) _
      simp only [List.mem_cons, List.not_mem_nil, or_false] at hc
      rcases hc with rfl | rfl | rfl | rfl | rfl | rfl | rfl <;> first | exact hsign | decide
    · split
      · rfl
      · exact hparen _
      · rw [occurrences_append_right (by decide), occurrences_append_left (by decide)]
      · rw [occurrences_append_right (by decide), occurrences_append_left (by decide)]
  have hplural : occurrences names t.unit.plural = [] := occurrences_own hf (name_mem_ownWords t.unit).2 rfl
  have hlast : NameBreak (t.value ++ [' ', '|', '|', ' ', '\'', ' ']) t.unit.plural :=
    nameBreak_of_last (by simp; decide) _
  rw [Term.modifier, occurrences_append_right (by decide), occurrences_append hlast, hplural, List.append_nil,
    occurrences_append_right (by decide), hvalue]

/-- The written forms of terms hold the names of the amounts. -/
theorem occurrences_writtenTerms (hf : ∀ x ∈ names, Fresh x) (ts : List Term) :
    occurrences names (writtenTerms ts) = ts.flatMap fun t => occurrences names t.amount := by
  induction ts with
  | nil => exact occurrences_eq_nil (by decide)
  | cons t ts ih =>
    have happ : writtenTerms (t :: ts) = [',', ' '] ++ (t.modifier ++ writtenTerms ts) := by simp [writtenTerms]
    have hlast : NameBreak t.modifier (writtenTerms ts) := by
      refine nameBreak_of_last ?_ _
      rw [Term.modifier, List.getLast?_append]
      exact (by decide : isWord '\'' = false)
    rw [happ, occurrences_append_left (by decide), occurrences_append hlast, occurrences_modifier hf, ih,
      List.flatMap_cons]

namespace Located

variable {T : Text} {e : Expression} {FA G Fb M Qs H : List Piece}

/-- The names of a text with an expression in it. -/
theorem occurrences_text (h : Located T e FA G Fb M Qs H) (hf : ∀ x ∈ names, Fresh x)
    (hc : ∀ t, .region .comment t ∈ SqlDialect.pieces T → occurrences names t = []) :
    occurrences names T = occurrences names (textOf FA) ++ (occurrences names e.base ++
      ((e.terms.flatMap fun t => occurrences names t.amount) ++ occurrences names (T.drop e.stop))) := by
  have hmem : ∀ p ∈ M ++ Qs, p ∈ SqlDialect.pieces T := fun p hp => by
    rw [h.pieces]
    rcases List.mem_append.mp hp with hp | hp <;> simp [hp]
  have hdropped : ∀ ds : List Piece, (∀ p ∈ ds, isDropped p = true) → (∀ p ∈ ds, p ∈ SqlDialect.pieces T) →
      occurrences names (textOf ds) = [] := fun ds hds hm =>
    occurrences_dropped hds hm fun t ht => hc t (hm _ ht)
  -- the joints of the pieces
  have hfront : NameBreak (textOf FA) (T.drop e.start) := NameBreak.of_wordBreak h.wordBreak
  have hgroup := nameBreak_of_last h.group_last (e.base ++ (textOf (M ++ Qs) ++ (textOf H ++ T.drop e.stop)))
  have hbase : NameBreak e.base (textOf (M ++ Qs) ++ (textOf H ++ T.drop e.stop)) := by
    right
    rw [textOf_append, List.append_assoc]
    exact head_dropped_append h.dropped_ne h.dropped (fun p hp => hmem p (by simp [hp])) _
  have hterms := nameBreak_of_head h.after (textOf (M ++ Qs))
  have hclose := nameBreak_of_last h.close_last (T.drop e.stop)
  have hdrop : T.drop e.start = textOf G ++ (e.base ++ (textOf (M ++ Qs) ++ (textOf H ++ T.drop e.stop))) := by
    rw [h.drop_start]
    simp only [textOf_append, List.append_assoc, h.base]
  have hT : T = textOf FA ++ T.drop e.start := by
    conv => lhs; rw [h.text]
    rw [h.drop_start]
  conv => lhs; rw [hT]
  rw [occurrences_append hfront, hdrop, occurrences_append hgroup, occurrences_append hbase, occurrences_append hterms,
    occurrences_append hclose, h.chain.occurrences hf hmem fun t ht => hc t (hmem _ ht),
    hdropped G h.group fun p hp => h.mem_pieces (by simp [hp]),
    hdropped H h.close fun p hp => h.mem_pieces (by simp [hp]), List.nil_append, List.nil_append]

/-- The names of the text with the written form in the place of the expression. -/
theorem occurrences_render (h : Located T e FA G Fb M Qs H) (hf : ∀ x ∈ names, Fresh x) :
    occurrences names (textOf FA ++ e.render) = occurrences names (textOf FA) ++ (occurrences names e.base ++
      e.terms.flatMap fun t => occurrences names t.amount) := by
  have hopening : opening = functionName ++ ['('] := by unfold opening; rfl
  have hcall : occurrences names (textOf FA ++ functionName) = occurrences names (textOf FA) := by
    rcases h.front with hlast | ⟨x, v, w, hx, hw, hv, hlast⟩
    · rw [occurrences_append (Or.inl hlast), ← List.nil_append functionName, occurrences_functionName hf (by simp),
        List.append_nil]
    · -- the function's name is written behind a stop word, which becomes a longer word
      have hwown : w ∈ ownWords := by simp [ownWords, hw]
      rw [hx, List.append_assoc, occurrences_append (nameBreak_of_last hlast _),
        occurrences_append (nameBreak_of_last hlast _),
        occurrences_functionName hf (isName_of_lower_eq hv (ownWords_spec w hwown).1), occurrences_own hf hwown hv]
  have happ : textOf FA ++ e.render = (textOf FA ++ functionName) ++ '(' :: (e.base ++ writtenTerms e.terms) := by
    rw [render_eq, hopening]
    simp only [List.append_assoc, List.cons_append, List.nil_append]
  have hwritten : NameBreak e.base (writtenTerms e.terms) := by
    right
    cases ht : e.terms with
    | nil => rfl
    | cons t ts => rfl
  rw [happ, occurrences_append_cons (by decide), hcall, occurrences_append hwritten, occurrences_writtenTerms hf]

end Located

/-! ## The conversion -/

/-- The names at the end of a run. -/
theorem Run.occurrences {done rest out : Text} {es : List Expression} {ps : List Piece} (hf : ∀ x ∈ names, Fresh x)
    (h : Run done rest es out) (hat : At done rest ps)
    (hopen : ∀ e ∈ es, ∀ t ∈ e.terms, leavesCommentOpen t.amount = false)
    (hc : ∀ t, .region .comment t ∈ pieces (done ++ rest) → SqlDialect.occurrences names t = []) :
    SqlDialect.occurrences names out = SqlDialect.occurrences names (done ++ rest) ∧
      ∀ t, .region .comment t ∈ pieces out → SqlDialect.occurrences names t = [] := by
  induction h generalizing ps with
  | stop => exact ⟨rfl, hc⟩
  | @step done rest out n e es hk he hrun ih =>
    obtain ⟨ms, FA, G, Fb, M, Qs, H, hcut, hms, hloc, htake⟩ := hat.next hk he
    obtain ⟨qs, hqs, hcomments, -, -⟩ := step_pieces hloc (hopen e List.mem_cons_self)
    have hc' : ∀ t, .region .comment t ∈ pieces (textOf FA ++ e.render ++ (done ++ rest).drop e.stop) →
        SqlDialect.occurrences names t = [] := fun t ht =>
      hc t ((hloc.mem_step hqs ht).elim (hcomments t) id)
    have hlast : NameBreak (textOf FA ++ e.render) ((done ++ rest).drop e.stop) :=
      nameBreak_of_last (by rw [List.getLast?_append, getLast?_render]; rfl) _
    rw [htake] at ih
    obtain ⟨hout, hcout⟩ := ih (at_render hqs) (fun e' he' => hopen e' (List.mem_cons_of_mem _ he')) hc'
    refine ⟨?_, hcout⟩
    rw [hout, occurrences_append hlast, hloc.occurrences_render hf, hloc.occurrences_text hf hc]
    simp only [List.append_assoc]

/-- **The names of a converted text.** They are those of the text, in their order, if none of them stands in a comment
and no amount runs into a comment at its end. -/
theorem occurrences_convert {text out : Text} (hf : ∀ x ∈ names, Fresh x) (h : convert text = .ok out)
    (hopen : ∀ e ∈ expressions text, ∀ t ∈ e.terms, leavesCommentOpen t.amount = false)
    (hc : ∀ t, .region .comment t ∈ pieces text → occurrences names t = []) :
    occurrences names out = occurrences names text :=
  ((run_convert h).occurrences hf (at_start text) hopen hc).1

end Fresh

end SqlDialect.Interval
