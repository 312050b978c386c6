import SqlDialect.Proofs.Markers
import SqlDialect.Proofs.Interval.Balanced

/-!
# Markers in interval expressions

In a text without comments the conversion takes out words, signs, brackets and spaces, and it writes words, signs,
brackets and literals of its own. None of these holds a marker, and none is made or broken where the parts are put
together, if no marker of the text has a word character directly behind it.

* `Located.tally_text`, `Located.tally_render`: the markers of the text, before and after a step.
* `tally_convert`: a converted text has as many markers as the text, and none of them has got a word character behind.
-/

namespace SqlDialect.Interval

open Marker

variable {p : Text → Bool} {either : Bool}

/-! ## What is dropped -/

/-- Dropped pieces that are no comments hold no marker. -/
theorem unmarked_of_isDropped {ds : List Piece} (h : ∀ q ∈ ds, isDropped q = true)
    (hc : ∀ t, .region .comment t ∉ ds) : Unmarked (textOf ds) := by
  intro c hm
  obtain ⟨q, hq, hcq⟩ := List.mem_flatMap.mp hm
  have hdropped := h q hq
  cases q with
  | code d =>
    rw [List.mem_singleton.mp hcq]
    constructor
    · rintro rfl
      cases hdropped
    · rintro rfl
      cases hdropped
  | region kind t =>
    cases kind with
    | literal => cases hdropped
    | comment => exact absurd hq (hc t)

/-- The number of places in the amounts of terms. -/
def tallyAmounts (p : Text → Bool) : List Term → Nat
  | [] => 0
  | t :: ts => tally p t.amount + tallyAmounts p ts

theorem two_le_unitName (unit : TimeUnit) : 2 ≤ unit.name.length := by
  cases unit <;> rw [TimeUnit.name] <;> decide

/-- **A term.** Its markers are those of its amount. -/
theorem TermPieces.tally {t : Term} {qs : List Piece} {r : Text} (h : TermPieces t qs) (hp : Tells either p)
    (hg : Marker.tally (isGlued either) (textOf qs ++ r) = 0) :
    Marker.tally p (textOf qs ++ r) = Marker.tally p t.amount + Marker.tally p r := by
  obtain ⟨v, u, ys, rfl, hv, hu, htrim, -⟩ := h
  obtain ⟨s₁, h₁, hs₁⟩ := Text.trimStart_decomp (textOf ys)
  obtain ⟨s₂, h₂, hs₂⟩ := Text.trimEnd_decomp (Text.trimStart (textOf ys))
  change Text.trimStart (textOf ys) = Text.trim (textOf ys) ++ s₂ at h₂
  rw [htrim] at h₂
  have htext : textOf (v.map .code ++ (ys ++ u.map .code)) ++ r = (v ++ s₁) ++ (t.amount ++ ((s₂ ++ u) ++ r)) := by
    rw [textOf_append, textOf_append, textOf_map_code, textOf_map_code, h₁, h₂]
    simp only [List.append_assoc]
  have hfront : Unmarked (v ++ s₁) :=
    .append (unmarked_of_isWord (isWord_of_lower_eq hv isWord_keyword)) (unmarked_of_isSpace hs₁)
  have hback : Unmarked (s₂ ++ u) :=
    .append (unmarked_of_isSpace hs₂) (unmarked_of_isWord (isWord_of_lower_eq hu (isWord_unit _)))
  rw [htext] at hg ⊢
  have hseam : Seam either t.amount ((s₂ ++ u) ++ r) := by
    apply Seam.of_glued
    · have hle := tally_le_append (isGlued either) (v ++ s₁) (t.amount ++ ((s₂ ++ u) ++ r))
      omega
    · intro _ hletter
      cases s₂ with
      | nil => exact second_of_lower_eq hu (isWord_unit _) (two_le_unitName _) r
      | cons c s₂ =>
        have hspace := isName_of_isSpace (hs₂ c List.mem_cons_self)
        rw [List.cons_append, List.cons_append, List.head?_cons, Option.any_some, isLetter_of_isName hspace] at hletter
        cases hletter
  rw [tally_append_left hp hfront, tally_append hp hseam, tally_append_left hp hback]

/-- The terms hold the markers of their amounts. -/
theorem ChainPieces.tally {ts : List Term} {qs : List Piece} {r : Text} (h : ChainPieces ts qs) (hp : Tells either p)
    (hc : ∀ t, .region .comment t ∉ qs) (hg : Marker.tally (isGlued either) (textOf qs ++ r) = 0) :
    Marker.tally p (textOf qs ++ r) = tallyAmounts p ts + Marker.tally p r := by
  induction h with
  | nil => rw [textOf_nil, List.nil_append, tallyAmounts, Nat.zero_add]
  | @cons t ts ds qs rs _ hds _ ht _ ih =>
    have hplain : Unmarked (textOf ds) := unmarked_of_isDropped hds fun t ht => hc t (by simp [ht])
    simp only [textOf_append, List.append_assoc] at hg ⊢
    rw [tally_append_left (tells_isGlued either) hplain] at hg
    have hsplit := ht.tally (tells_isGlued either) hg
    rw [tally_append_left hp hplain, ht.tally hp hg, ih (fun t ht => hc t (by simp [ht])) (by omega), tallyAmounts,
      Nat.add_assoc]

/-! ## What is written -/

/-- The value of a term is its amount with signs, brackets and literals around it. -/
theorem value_split (t : Term) : ∃ a b : Text, t.value = a ++ (t.amount ++ b) ∧ Unmarked a ∧ Unmarked b ∧
    b.head?.any isWord = false := by
  rw [Term.value]
  split
  · refine ⟨_, [], by rw [List.append_nil], ?_, by simp [Unmarked], rfl⟩
    cases t.sign <;> decide
  · split
    · exact ⟨[], [], by simp, by simp [Unmarked], by simp [Unmarked], rfl⟩
    · exact ⟨['('], [')'], by simp, by decide, by decide, rfl⟩
    · exact ⟨['(', '-'], [')'], by simp, by decide, by decide, rfl⟩
    · exact ⟨['(', '-', '('], [')', ')'], by simp, by decide, by decide, rfl⟩

/-- The written form of a term holds the markers of its amount. -/
theorem tally_modifier (hp : Tells either p) (t : Term) (r : Text) :
    tally p (t.modifier ++ r) = tally p t.amount + tally p r := by
  obtain ⟨a, b, hvalue, ha, hb, hhead⟩ := value_split t
  have hplural : Unmarked t.unit.plural := by cases t.unit <;> rw [TimeUnit.plural, TimeUnit.name] <;> decide
  have hend : Unmarked (b ++ ([' ', '|', '|', ' ', '\'', ' '] ++ (t.unit.plural ++ ['\'']))) :=
    .append hb (.append (by decide) (.append hplural (by decide)))
  have htext : t.modifier ++ r =
      a ++ (t.amount ++ ((b ++ ([' ', '|', '|', ' ', '\'', ' '] ++ (t.unit.plural ++ ['\'']))) ++ r)) := by
    rw [Term.modifier, hvalue]
    simp only [List.append_assoc]
  have hseam : Seam either t.amount ((b ++ ([' ', '|', '|', ' ', '\'', ' '] ++ (t.unit.plural ++ ['\'']))) ++ r) := by
    apply Seam.of_head
    cases b with
    | nil => rfl
    | cons c b => exact hhead
  rw [htext, tally_append_left hp ha, tally_append hp hseam, tally_append_left hp hend]

/-- The written terms hold the markers of the amounts. -/
theorem tally_writtenTerms (hp : Tells either p) (ts : List Term) (r : Text) :
    tally p (writtenTerms ts ++ r) = tallyAmounts p ts + tally p r := by
  induction ts with
  | nil =>
    have hplain : Unmarked (writtenTerms []) := by decide
    rw [tally_append_left hp hplain, tallyAmounts, Nat.zero_add]
  | cons t ts ih =>
    have htext : writtenTerms (t :: ts) ++ r = [',', ' '] ++ (t.modifier ++ (writtenTerms ts ++ r)) := by
      simp [writtenTerms]
    rw [htext, tally_append_left hp (by decide), tally_modifier hp, ih, tallyAmounts, Nat.add_assoc]

theorem two_le_stopWord : ∀ w ∈ stopWords, 2 ≤ w.length := by rw [stopWords]; decide

/-- No marker goes on in the function's name. -/
theorem seam_of_endsWords {a b : Text} (h : EndsWords a) (hb : b.head?.any (isLetter either) = false) :
    Seam either a b := by
  refine ⟨fun _ => hb, fun k hk hs => ?_⟩
  rcases h with hlast | ⟨x, v, w, rfl, hw, hv, -⟩
  · exact absurd hs (not_marker_of_last hlast hk)
  · -- a stop word has two characters of a word at its end
    have hlen : ['%', k].length ≤ v.length := by
      rw [length_eq_of_lower_eq hv]
      exact two_le_stopWord w hw
    have hsuffix := List.suffix_of_suffix_length_le hs (List.suffix_append x v) hlen
    have hword := isWord_of_lower_eq hv (stopWords_word w hw).2 '%' (hsuffix.subset List.mem_cons_self)
    cases hword

theorem unmarked_opening : Unmarked opening := by rw [opening_text]; decide

theorem head?_opening : opening.head? = some 'd' := by rw [opening_text]; decide

/-! ## A step -/

namespace Located

variable {T : Text} {e : Expression} {FA G Fb M Qs H : List Piece}

/-- The markers of a text with an expression in it. -/
theorem tally_text (h : Located T e FA G Fb M Qs H) (hp : Tells either p)
    (hc : ∀ t, .region .comment t ∉ SqlDialect.pieces T) (hg : tally (isGlued either) T = 0) :
    tally p T = tally p (textOf FA) + (tally p e.base +
      (tallyAmounts p e.terms + tally p (T.drop e.stop))) := by
  have hplain : ∀ ds : List Piece, (∀ q ∈ ds, isDropped q = true) → (∀ q ∈ ds, q ∈ FA ∨ q ∈ G ∨ q ∈ Fb ∨ q ∈ M ∨
      q ∈ Qs ∨ q ∈ H) → Unmarked (textOf ds) := fun ds hds hm =>
    unmarked_of_isDropped hds fun t ht => hc t (h.mem_pieces (hm _ ht))
  have hG := hplain G h.group (by simp +contextual)
  have hH := hplain H h.close (by simp +contextual)
  have hT : T = textOf FA ++ T.drop e.start := by
    conv => lhs; rw [h.text]
    rw [h.drop_start]
  have hdrop : T.drop e.start = textOf G ++ (e.base ++ (textOf (M ++ Qs) ++ (textOf H ++ T.drop e.stop))) := by
    rw [h.drop_start]
    simp only [textOf_append, List.append_assoc, h.base]
  have hfront : Seam either (textOf FA) (T.drop e.start) := by
    apply Seam.of_glued
    · rw [← hT]
      exact hg
    · intro hlast hletter
      rw [h.mark hlast, Option.any_some] at hletter
      cases either <;> cases hletter
  have hbase : Seam either e.base (textOf (M ++ Qs) ++ (textOf H ++ T.drop e.stop)) := by
    apply Seam.of_glued
    · have hle := tally_le_append (isGlued either) (textOf FA ++ textOf G)
        (e.base ++ (textOf (M ++ Qs) ++ (textOf H ++ T.drop e.stop)))
      rw [List.append_assoc, ← hdrop, ← hT] at hle
      omega
    · intro _ hletter
      have hhead := head_dropped_append h.dropped_ne h.dropped (fun q hq => h.mem_pieces (by simp [hq]))
        (textOf Qs ++ (textOf H ++ T.drop e.stop))
      rw [textOf_append, List.append_assoc, head?_isLetter hhead] at hletter
      cases hletter
  have hrest : ∀ {q : Text → Bool}, Tells either q → tally q T = tally q (textOf FA) + (tally q e.base +
      tally q (textOf (M ++ Qs) ++ (textOf H ++ T.drop e.stop))) := fun hq => by
    conv => lhs; rw [hT]
    rw [tally_append hq hfront, hdrop, tally_append_left hq hG, tally_append hq hbase]
  have hchain := hrest (tells_isGlued either)
  have hcomment : ∀ t, .region .comment t ∉ M ++ Qs := fun t ht => by
    refine hc t (h.mem_pieces ?_)
    rcases List.mem_append.mp ht with ht | ht <;> simp [ht]
  rw [hrest hp, h.chain.tally hp hcomment (by omega), tally_append_left hp hH]

/-- The markers of the text with the written form in the place of the expression. -/
theorem tally_render (h : Located T e FA G Fb M Qs H) (hp : Tells either p) (r : Text) :
    tally p (textOf FA ++ e.render ++ r) = tally p (textOf FA) + (tally p e.base +
      (tallyAmounts p e.terms + tally p r)) := by
  have htext : textOf FA ++ e.render ++ r = textOf FA ++ (opening ++ (e.base ++ (writtenTerms e.terms ++ r))) := by
    rw [render_eq]
    simp only [List.append_assoc]
  have hfront : Seam either (textOf FA) (opening ++ (e.base ++ (writtenTerms e.terms ++ r))) := by
    apply seam_of_endsWords h.front
    rw [List.head?_append, head?_opening]
    cases either <;> rfl
  have hbase : Seam either e.base (writtenTerms e.terms ++ r) := by
    apply Seam.of_head
    cases e.terms <;> rfl
  rw [htext, tally_append hp hfront, tally_append_left hp unmarked_opening, tally_append hp hbase,
    tally_writtenTerms hp]

end Located

/-! ## The conversion -/

/-- **The markers at the end of a run.** In a text without comments they are those at its start, if none of them has a
word character directly behind it. -/
theorem Run.tally {done rest out : Text} {es : List Expression} {ps : List Piece} (h : Run done rest es out)
    (hat : At done rest ps) (hc : ∀ t, .region .comment t ∉ pieces (done ++ rest))
    (hg : Marker.tally (isGlued either) (done ++ rest) = 0) :
    (∀ p, Tells either p → Marker.tally p out = Marker.tally p (done ++ rest)) ∧
      ∀ t, .region .comment t ∉ pieces out := by
  induction h generalizing ps with
  | stop => exact ⟨fun _ _ => rfl, hc⟩
  | @step done rest out n e es hk he hrun ih =>
    obtain ⟨ms, FA, G, Fb, M, Qs, H, hcut, hms, hloc, htake⟩ := hat.next hk he
    obtain ⟨qs, hqs, hcomments, -, -⟩ := step_pieces hloc (hloc.closed hc)
    have hstep : ∀ p, Tells either p →
        Marker.tally p (textOf FA ++ e.render ++ (done ++ rest).drop e.stop) = Marker.tally p (done ++ rest) :=
      fun p hp => by rw [hloc.tally_render hp, hloc.tally_text hp hc hg]
    have hc' : ∀ t, .region .comment t ∉ pieces (textOf FA ++ e.render ++ (done ++ rest).drop e.stop) := fun t ht =>
      hc t ((hloc.mem_step hqs ht).elim (hcomments t) id)
    rw [htake] at ih
    obtain ⟨hout, hcout⟩ := ih (at_render hqs) hc' (by rw [hstep _ (tells_isGlued either), hg])
    exact ⟨fun p hp => by rw [hout p hp, hstep p hp], hcout⟩

/-- The conversion keeps the markers of a text without comments. -/
theorem tally_convert {text out : Text} (h : convert text = .ok out) (hc : ∀ t, .region .comment t ∉ pieces text)
    (hg : tally (isGlued either) text = 0) :
    (∀ p, Tells either p → tally p out = tally p text) ∧ ∀ t, .region .comment t ∉ pieces out :=
  (run_convert h).tally (at_start text) hc hg

end SqlDialect.Interval
