import SqlDialect.Proofs.Markers
import SqlDialect.Proofs.TimeDifference.Step

/-!
# Markers in timestamp differences

A call loses its name, its unit, its commas and spaces, and gets the words of the embedded form. None of these holds a
marker, and none is made or broken where the parts are put together, if no marker of the text has a word character
directly behind it.

* `Step.tally`: the markers of a text after a step.
* `tally_convert`: a converted text has as many markers as the text.
-/

namespace SqlDialect.TimeDifference

open Marker

variable {p : Text → Bool} {either : Bool}

/-- A text that up to the spaces around it is a word holds no marker. -/
theorem unmarked_of_trim {t w : Text} (h : Text.lower (Text.trim t) = Text.lower w) (hw : ∀ c ∈ w, isWord c = true) :
    Unmarked t := by
  obtain ⟨s₁, h₁, hs₁⟩ := Text.trimStart_decomp t
  obtain ⟨s₂, h₂, hs₂⟩ := Text.trimEnd_decomp (Text.trimStart t)
  change Text.trimStart t = Text.trim t ++ s₂ at h₂
  rw [h₁, h₂]
  have hword := unmarked_of_isWord (isWord_of_lower_eq h hw)
  exact .append (unmarked_of_isSpace hs₁) (.append hword (unmarked_of_isSpace hs₂))

theorem isWord_unitName : ∀ c ∈ unitName, isWord c = true := by decide +kernel

/-- An argument with spaces around it and a comma or parenthesis behind. -/
theorem tally_argument (hp : Tells either p) {s₁ a s₂ r : Text} (hs : ∀ c ∈ s₁ ++ s₂, isSpace c = true) {d : Char}
    (hd : d = ',' ∨ d = ')') (hg : tally (isGlued either) (s₁ ++ (a ++ (s₂ ++ d :: r))) = 0) :
    tally p (s₁ ++ (a ++ (s₂ ++ d :: r))) = tally p a + tally p r := by
  have hseam : Seam either a (s₂ ++ d :: r) := by
    apply Seam.of_glued
    · have hle := tally_le_append (isGlued either) s₁ (a ++ (s₂ ++ d :: r))
      omega
    · intro _ hletter
      have hhead : (s₂ ++ d :: r).head?.any isName = false := by
        cases s₂ with
        | nil => rcases hd with rfl | rfl <;> rfl
        | cons c s₂ => exact isName_of_isSpace (hs c (by simp))
      rw [head?_isLetter hhead] at hletter
      cases hletter
  have hd' : Unmarked [d] := by rcases hd with rfl | rfl <;> decide
  rw [tally_append_left hp (unmarked_of_isSpace fun c hc => hs c (List.mem_append_left _ hc)), tally_append hp hseam,
    tally_append_left hp (unmarked_of_isSpace fun c hc => hs c (List.mem_append_right _ hc)), ← List.singleton_append,
    tally_append_left hp hd']

/-- **A call.** Its markers are those of the two timestamps. -/
theorem CallPieces.tally {qs fs ls u : List Piece} {v bl f₁ f₂ l₁ l₂ r : Text}
    (h : CallPieces qs fs ls v bl f₁ f₂ l₁ l₂ u) (hp : Tells either p)
    (hg : Marker.tally (isGlued either) (textOf qs ++ r) = 0) :
    Marker.tally p (textOf qs ++ r) = Marker.tally p (textOf fs) + (Marker.tally p (textOf ls) + Marker.tally p r) := by
  have hfront : Unmarked (v ++ (bl ++ ('(' :: (textOf u ++ [','])))) := by
    refine .append (unmarked_of_isWord (isWord_of_lower_eq h.name isWord_functionName)) (.append ?_ ?_)
    · exact unmarked_of_isSpace fun c hc => isSpace_of_isBlank (h.blanks c hc)
    · exact .append (a := ['(']) (by decide) (.append (unmarked_of_trim h.unit isWord_unitName) (by decide))
  have htext : textOf qs ++ r = (v ++ (bl ++ ('(' :: (textOf u ++ [','])))) ++
      (f₁ ++ (textOf fs ++ (f₂ ++ ',' :: (l₁ ++ (textOf ls ++ (l₂ ++ ')' :: r)))))) := by
    rw [h.pieces]
    simp [textOf_map_code, Piece.text]
  rw [htext] at hg ⊢
  rw [tally_append_left (tells_isGlued either) hfront] at hg
  have hfirst := fun {q : Text → Bool} (hq : Tells either q) =>
    tally_argument hq (fun c hc => h.spaces c (List.mem_append_left _ hc)) (Or.inl rfl) hg
  have hrest := hfirst (tells_isGlued either)
  rw [tally_append_left hp hfront, hfirst hp,
    tally_argument hp (fun c hc => h.spaces c (List.mem_append_right _ hc)) (Or.inr rfl) (by omega)]

/-- The name of the function does not start with the letter of a marker. -/
theorem CallPieces.head {qs fs ls u : List Piece} {v bl f₁ f₂ l₁ l₂ : Text}
    (h : CallPieces qs fs ls v bl f₁ f₂ l₁ l₂ u) (r : Text) : (textOf qs ++ r).head?.any (isLetter either) = false := by
  have hname : (Text.lower v).head? = some 't' := by
    rw [h.name]
    decide +kernel
  rw [h.pieces, textOf_append, textOf_map_code, List.append_assoc]
  cases v with
  | nil => cases hname
  | cons c v =>
    rw [List.cons_append, List.head?_cons, Option.any_some, Bool.eq_false_iff]
    intro hletter
    have hlower := toLower_of_isLetter hletter
    rw [Text.lower, List.map_cons, List.head?_cons, hlower] at hname
    cases hname

/-- What is written for a call holds the markers of the two timestamps. -/
theorem tally_written (hp : Tells either p) (fs ls : List Piece) (r : Text) :
    tally p (textOf (writtenPieces fs ls) ++ r) = tally p (textOf ls) + (tally p (textOf fs) + tally p r) := by
  have hopening : Unmarked opening := by decide +kernel
  have hmiddle : Unmarked middle := by decide +kernel
  have hclosing : Unmarked closing := by decide +kernel
  have htext : textOf (writtenPieces fs ls) ++ r =
      opening ++ (textOf ls ++ (middle ++ (textOf fs ++ (closing ++ r)))) := by
    simp [writtenPieces, textOf_map_code]
  have hhead : ∀ {x : Text}, x.head? = some ')' → ∀ y : Text, (x ++ y).head?.any isWord = false := fun hx y => by
    rw [List.head?_append, hx]
    rfl
  rw [htext, tally_append_left hp hopening, tally_append hp (.of_head (hhead (by decide +kernel) _)),
    tally_append_left hp hmiddle, tally_append hp (.of_head (hhead (by decide +kernel) _)),
    tally_append_left hp hclosing]

/-- **A step.** It keeps the markers of a text in which no marker has a word character directly behind it. -/
theorem Step.tally {T next : Text} (h : Step T next) (hg : Marker.tally (isGlued either) T = 0) (hp : Tells either p) :
    Marker.tally p next = Marker.tally p T := by
  obtain ⟨ps, qs, fs, ls, rs, v, bl, f₁, f₂, l₁, l₂, u, hT, hcall, hnext⟩ := h
  have htext : T = textOf ps ++ (textOf qs ++ textOf rs) := by
    rw [← textOf_pieces T, hT, textOf_append, textOf_append]
  have hnext' : next = textOf ps ++ (textOf (writtenPieces fs ls) ++ textOf rs) := by
    rw [← textOf_pieces next, hnext, textOf_append, textOf_append]
  have hfront : Seam either (textOf ps) (textOf qs ++ textOf rs) := by
    apply Seam.of_glued
    · rw [← htext]
      exact hg
    · intro _ hletter
      rw [hcall.head] at hletter
      cases hletter
  have hwritten : Seam either (textOf ps) (textOf (writtenPieces fs ls) ++ textOf rs) := by
    apply Seam.of_head
    rw [writtenPieces, textOf_append, textOf_map_code, List.append_assoc, List.head?_append, head?_opening]
    rfl
  rw [htext, tally_append (tells_isGlued either) hfront] at hg
  rw [htext, hnext', tally_append hp hwritten, tally_append hp hfront, hcall.tally hp (by omega), tally_written hp]
  omega

/-- **A run.** -/
theorem Run.tally {text out : Text} (h : Run text out) (hg : Marker.tally (isGlued either) text = 0) :
    ∀ p, Tells either p → Marker.tally p out = Marker.tally p text := by
  induction h with
  | stop => exact fun _ _ => rfl
  | step hstep _ ih =>
    intro p hp
    rw [ih (by rw [hstep.tally hg (tells_isGlued either), hg]) p hp, hstep.tally hg hp]

/-- The conversion keeps the markers of a text without comments. -/
theorem tally_convert {text out : Text} (h : convert text = .ok out) (hc : ∀ t, .region .comment t ∉ pieces text)
    (hg : tally (isGlued either) text = 0) (hp : Tells either p) : tally p out = tally p text :=
  (run_convert h hc).tally hg p hp

end SqlDialect.TimeDifference
