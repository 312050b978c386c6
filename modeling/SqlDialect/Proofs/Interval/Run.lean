import SqlDialect.Interval.Convert
import SqlDialect.Proofs.Interval.Step

/-!
# Runs of the conversion

`expressions text` lists the interval expressions of a text in the order in which they are converted. A `Run` goes from
a text that is converted up to some place, through these, to the text that is converted as a whole.

* `run_convert`: the conversion is a run.
* `At.next`: a step leads from one place between two pieces to another.
* `findKeyword_of_convert`: a keyword is left exactly where a base or an amount holds one.
-/

namespace SqlDialect.Interval

/-! ## Runs -/

/-- The expressions of `rest` in the order in which they are converted, where `done` stands in front. -/
def expressionsFrom (done rest : Text) : List Expression :=
  match _hk : findKeyword keyword done.getLast? rest with
  | none => []
  | some n =>
    match _h : locate (done ++ rest) (done.length + n) with
    | .error _ => []
    | .ok e => e :: expressionsFrom ((done ++ rest).take e.start ++ e.render) ((done ++ rest).drop e.stop)
termination_by rest.length
decreasing_by
  have h1 := locate_lt _h
  have h2 := findKeyword_add_le _hk
  have h3 : 0 < keyword.length := by decide +kernel
  simp only [List.length_drop, List.length_append]
  omega

/-- The interval expressions of a text in the order in which they are converted. -/
def expressions (text : Text) : List Expression := expressionsFrom [] text

/-- From `done` in front of `rest`, the expressions are converted one after the other, and the text becomes `out`. -/
inductive Run : (done rest : Text) → List Expression → (out : Text) → Prop where
  | stop {done rest : Text} : findKeyword keyword done.getLast? rest = none → Run done rest [] (done ++ rest)
  | step {done rest out : Text} {n : Nat} {e : Expression} {es : List Expression} :
      findKeyword keyword done.getLast? rest = some n → locate (done ++ rest) (done.length + n) = .ok e →
      Run ((done ++ rest).take e.start ++ e.render) ((done ++ rest).drop e.stop) es out → Run done rest (e :: es) out

theorem run_convertFrom {done rest out : Text} (h : convertFrom done rest = .ok out) :
    Run done rest (expressionsFrom done rest) out := by
  fun_induction convertFrom done rest with
  | case1 done rest hk =>
    cases h
    rw [expressionsFrom]
    split
    · exact .stop hk
    · next n hn =>
      rw [hk] at hn
      cases hn
  | case2 => cases h
  | case3 done rest n hk e he ih =>
    rw [expressionsFrom]
    split
    · next hn =>
      rw [hk] at hn
      cases hn
    · next m hm =>
      rw [hk, Option.some.injEq] at hm
      subst hm
      split
      · next e' he' =>
        rw [he] at he'
        cases he'
      · next e' he' =>
        rw [he, Except.ok.injEq] at he'
        subst he'
        exact .step hk he (ih h)

/-- The conversion is a run. -/
theorem run_convert {text out : Text} (h : convert text = .ok out) : Run [] text (expressions text) out :=
  run_convertFrom h

/-! ## The places that a run comes to -/

/-- The text is converted up to a place between two pieces, and no word ends there. -/
structure At (done rest : Text) (ps : List Piece) : Prop where
  reads : Reads done rest ps
  last : done.getLast?.any isWord = false

theorem at_start (text : Text) : At [] text [] := ⟨Reads.nil text, rfl⟩

theorem firstIn_lt {p : Option Char → Text → Bool} {before : Option Char} {ps : List Piece} {n : Nat}
    (h : firstIn p before ps = some n) : n < (textOf ps).length := by
  obtain ⟨ms, c, ns, rfl, rfl, -⟩ := firstIn_split h
  simp only [textOf_append, textOf_cons, Piece.text, List.length_append, List.length_singleton]
  omega

theorem getLast?_render (e : Expression) : e.render.getLast? = some ')' := by
  rw [render_eq, writtenTerms]
  simp

section Step

variable {done rest : Text} {ps : List Piece} {n : Nat} {e : Expression}

/-- What stands between the place and the next keyword. -/
theorem At.skip (h : At done rest ps) (hk : findKeyword keyword done.getLast? rest = some n) :
    ∃ ms b, pieces (done ++ rest) = (ps ++ ms) ++ pieces ((done ++ rest).drop (done.length + n)) ∧
      (textOf (ps ++ ms)).length = done.length + n ∧
      startsKeyword keyword b ((done ++ rest).drop (done.length + n)) = true ∧ Free ms := by
  obtain ⟨ms, v, u, hrest, hp, hl, hv, hb, hu⟩ := findKeyword_split keyword_ne_nil isWord_keyword hk
  have hvu : pieces (v ++ u) = v.map .code ++ pieces u := reads_word (isWord_of_lower_eq hv isWord_keyword) u
  have hdrop : (done ++ rest).drop (done.length + n) = v ++ u := by
    rw [← List.drop_drop, List.drop_left, hrest, ← hl, List.drop_left]
  refine ⟨ms, (textOf ms).getLast?.or done.getLast?, ?_, ?_, ?_, ?_⟩
  · rw [hdrop, hvu, h.reads, hp, List.append_assoc]
  · rw [textOf_append, h.reads.textOf_eq, List.length_append, hl]
  · rw [hdrop]
    exact startsKeyword_of_lower_eq hv hb hu
  · -- the keyword found is the first
    have hlast : (textOf ms).getLast?.any isWord = false := by
      cases hm : (textOf ms).getLast? with
      | none => rfl
      | some c =>
        rw [hm] at hb
        exact hb
    rw [findKeyword_eq_firstIn, hp, firstIn_keyword_append isWord_keyword (wordBreak_of_last hlast _)] at hk
    rw [← free_before (Or.inl h.last)]
    cases hm : firstIn (startsKeyword keyword) done.getLast? ms with
    | none => rfl
    | some k =>
      rw [hm, Option.some_or, Option.some.injEq] at hk
      have := firstIn_lt hm
      omega

/-- **The next expression.** It is located in the text, and behind it stands again a place between two pieces. -/
theorem At.next (h : At done rest ps) (hk : findKeyword keyword done.getLast? rest = some n)
    (he : locate (done ++ rest) (done.length + n) = .ok e) :
    ∃ ms FA G Fb M Qs H, ps ++ ms = FA ++ (G ++ (Fb ++ M)) ∧ Free ms ∧ Located (done ++ rest) e FA G Fb M Qs H ∧
      (done ++ rest).take e.start = textOf FA := by
  obtain ⟨ms, b, hp, hl, hb, hfree⟩ := h.skip hk
  obtain ⟨FA, G, Fb, M, Qs, H, hcut, hloc⟩ := locate_pieces hp hl hb he
  exact ⟨ms, FA, G, Fb, M, Qs, H, hcut, hfree, hloc, hloc.take_start⟩

theorem at_render {a r : Text} {qs : List Piece} (h : Reads (a ++ e.render) r qs) : At (a ++ e.render) r qs := by
  refine ⟨h, ?_⟩
  rw [List.getLast?_append, getLast?_render]
  rfl

end Step

/-! ## No keyword is left -/

/-- Dropped pieces do not start with a name. -/
theorem head_dropped {T : Text} {ds : List Piece} (h : ∀ p ∈ ds, isDropped p = true) (hm : ∀ p ∈ ds, p ∈ pieces T) :
    (textOf ds).head?.any isName = false := by
  cases ds with
  | nil => rfl
  | cons p ds =>
    have hp := h p List.mem_cons_self
    cases p with
    | code c => exact isName_of_isDropped hp
    | region kind t =>
      obtain ⟨c, rest, n, rfl, hr⟩ := region_cons (hm _ List.mem_cons_self)
      rcases regionTail?_cases hr with ⟨rfl, -⟩ | ⟨-, hc⟩
      · cases hp
      · rcases mark_of_commentTail? hc with rfl | rfl | rfl <;> rfl

/-- Pieces of a text are not empty. -/
theorem textOf_ne_nil {T : Text} {ds : List Piece} (hne : ds ≠ []) (hm : ∀ p ∈ ds, p ∈ pieces T) : textOf ds ≠ [] := by
  obtain ⟨p, ds, rfl⟩ := List.exists_cons_of_ne_nil hne
  rw [textOf_cons]
  intro he
  have hp := (List.append_eq_nil_iff.mp he).1
  cases p with
  | code c => cases hp
  | region kind t => exact region_ne_nil (hm _ List.mem_cons_self) hp

/-- Dropped pieces in front of something do not start with a name either. -/
theorem head_dropped_append {T : Text} {ds : List Piece} (hne : ds ≠ []) (h : ∀ p ∈ ds, isDropped p = true)
    (hm : ∀ p ∈ ds, p ∈ pieces T) (r : Text) : (textOf ds ++ r).head?.any isName = false := by
  have hhead := head_dropped h hm
  obtain ⟨c, x, hx⟩ := List.exists_cons_of_ne_nil (textOf_ne_nil hne hm)
  rw [hx] at hhead ⊢
  exact hhead

namespace Located

variable {T : Text} {e : Expression} {FA G Fb M Qs H : List Piece}

theorem mem_pieces (h : Located T e FA G Fb M Qs H) {p : Piece}
    (hp : p ∈ FA ∨ p ∈ G ∨ p ∈ Fb ∨ p ∈ M ∨ p ∈ Qs ∨ p ∈ H) :
    p ∈ SqlDialect.pieces T := by
  rw [h.pieces]
  rcases hp with hp | hp | hp | hp | hp | hp <;> simp [hp]

/-- The text behind a step is made of the pieces that are kept and written, and of those behind the expression. -/
theorem mem_step (h : Located T e FA G Fb M Qs H) {qs : List Piece} {p : Piece}
    (hqs : Reads (textOf FA ++ e.render) (T.drop e.stop) qs)
    (hp : p ∈ SqlDialect.pieces (textOf FA ++ e.render ++ T.drop e.stop)) : p ∈ qs ∨ p ∈ SqlDialect.pieces T := by
  rw [hqs] at hp
  refine (List.mem_append.mp hp).imp_right fun hp => ?_
  rw [h.pieces]
  simp [hp]

theorem wordBreak_front (h : Located T e FA G Fb M Qs H) : WordBreak (textOf FA) (textOf (G ++ (Fb ++ M))) := by
  refine h.wordBreak.imp_right fun hw => ?_
  have hne : textOf (G ++ (Fb ++ M)) ≠ [] := by
    simp only [textOf_append, h.base]
    exact fun he => h.base_ne (List.append_eq_nil_iff.mp (List.append_eq_nil_iff.mp he).2).1
  obtain ⟨c, t, hc⟩ := List.exists_cons_of_ne_nil hne
  intro d hd
  apply hw d
  have : T.drop e.start = textOf (G ++ (Fb ++ M)) ++ (textOf (Qs ++ H) ++ T.drop e.stop) := by
    rw [h.drop_start]
    simp only [textOf_append, List.append_assoc]
  rw [this, hc]
  rw [hc] at hd
  exact hd

/-- What stood in front of the keyword holds no other keyword if what is kept and the base hold none. -/
theorem free_before_keyword (h : Located T e FA G Fb M Qs H) (hFA : Free FA)
    (hbase : findKeyword keyword none e.base = none) : Free (FA ++ (G ++ (Fb ++ M))) := by
  rw [free_append h.wordBreak_front, free_append (wordBreak_of_last h.group_last _)]
  refine ⟨hFA, free_of_codes fun c hc => isName_of_isDropped (h.group _ hc), ?_⟩
  apply Free.append (h.free_base.mpr hbase) (free_of_codes fun c hc => isName_of_isDropped (h.dropped _ hc))
  apply foreign_of_isName
  exact head_dropped h.dropped fun p hp => h.mem_pieces (by simp [hp])

end Located

/-- The keywords left at the end of a run. -/
theorem Run.free {done rest out : Text} {es : List Expression} {ps : List Piece} (h : Run done rest es out)
    (hat : At done rest ps) (hopen : ∀ e ∈ es, ∀ t ∈ e.terms, leavesCommentOpen t.amount = false) :
    (Free ps → (∀ e ∈ es, e.KeywordFree) → findKeyword keyword none out = none) ∧
      (.code '\'' ∉ pieces (done ++ rest) → findKeyword keyword none out = none →
        Free ps ∧ ∀ e ∈ es, e.KeywordFree) := by
  induction h generalizing ps with
  | @stop done rest hk =>
    rw [findKeyword_eq_firstIn, free_before (Or.inl hat.last)] at hk
    have hlast : (textOf ps).getLast?.any isWord = false := by
      rw [hat.reads.textOf_eq]
      exact hat.last
    have hiff : findKeyword keyword none (done ++ rest) = none ↔ Free ps ∧ Free (pieces rest) := by
      rw [findKeyword_eq_firstIn, hat.reads]
      exact free_append (wordBreak_of_last hlast _)
    exact ⟨fun hf _ => hiff.mpr ⟨hf, hk⟩, fun _ hout => ⟨(hiff.mp hout).1, by simp⟩⟩
  | @step done rest out n e es hk he hrun ih =>
    obtain ⟨ms, FA, G, Fb, M, Qs, H, hcut, hms, hloc, htake⟩ := hat.next hk he
    obtain ⟨qs, hqs, -, hfree, hquote⟩ := step_pieces hloc (hopen e List.mem_cons_self)
    rw [htake] at ih
    obtain ⟨ih₁, ih₂⟩ := ih (at_render hqs) fun e' he' => hopen e' (List.mem_cons_of_mem _ he')
    have hlast : (textOf ps).getLast?.any isWord = false := by
      rw [hat.reads.textOf_eq]
      exact hat.last
    have hkept : Free ps ↔ Free (FA ++ (G ++ (Fb ++ M))) := by
      rw [← hcut, free_append (wordBreak_of_last hlast _)]
      exact ⟨fun h => ⟨h, hms⟩, fun h => h.1⟩
    constructor
    · intro hf hes
      have hFA := ((free_append hloc.wordBreak_front).mp (hkept.mp hf)).1
      exact ih₁ (hfree hFA (hes e List.mem_cons_self)) fun e' he' => hes e' (List.mem_cons_of_mem _ he')
    · intro hn hout
      obtain ⟨hnq, hback, -⟩ := hquote hn
      have hn' : .code '\'' ∉ pieces (textOf FA ++ e.render ++ (done ++ rest).drop e.stop) := fun hm =>
        (hloc.mem_step hqs hm).elim hnq hn
      obtain ⟨hq, hes⟩ := ih₂ hn' hout
      obtain ⟨hFA, hfe⟩ := hback hq
      exact ⟨hkept.mpr (hloc.free_before_keyword hFA hfe.1), List.forall_mem_cons.mpr ⟨hfe, hes⟩⟩

/-- **Which keywords are left.** If no amount runs into a comment at its end, no keyword is left in the text unless the
base or an amount of an expression holds one. Where every quote `'` has a partner, such a keyword is left. -/
theorem findKeyword_of_convert {text out : Text} (h : convert text = .ok out)
    (hopen : ∀ e ∈ expressions text, ∀ t ∈ e.terms, leavesCommentOpen t.amount = false) :
    ((∀ e ∈ expressions text, e.KeywordFree) → findKeyword keyword none out = none) ∧
      (.code '\'' ∉ pieces text → findKeyword keyword none out = none → ∀ e ∈ expressions text, e.KeywordFree) := by
  obtain ⟨h₁, h₂⟩ := (run_convert h).free (at_start text) hopen
  exact ⟨fun hes => h₁ free_nil hes, fun hn hout => (h₂ hn hout).2⟩

/-- An interval within the amount of another is left as it is. -/
theorem keyword_left_in_amount :
    let text := "select t + interval timestampdiff(second, a, b + interval 1 day) second".toList
    let out := "select datetime(t, (timestampdiff(second, a, b + interval 1 day)) || ' seconds')".toList
    convert text = .ok out ∧ (∀ e ∈ expressions text, ∀ t ∈ e.terms, leavesCommentOpen t.amount = false) ∧
      .code '\'' ∉ pieces text ∧ findKeyword keyword none out ≠ none := by
  intro text out
  have hout : convert text = .ok out := eq_ok_of_toOption (by decide +kernel)
  have hopen : ∀ e ∈ expressions text, ∀ t ∈ e.terms, leavesCommentOpen t.amount = false := by decide +kernel
  have hquote : .code '\'' ∉ pieces text := by decide +kernel
  refine ⟨hout, hopen, hquote, fun hnone => ?_⟩
  have hfree := (findKeyword_of_convert hout hopen).2 hquote hnone
  exact absurd hfree (by decide +kernel)

end SqlDialect.Interval
