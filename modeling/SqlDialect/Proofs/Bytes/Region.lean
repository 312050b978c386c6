import SqlDialect.Proofs.Interval.Base
import SqlDialect.Proofs.Bytes.Keyword

/-!
# Regions by byte offsets

The table of literals and comments is written with offsets, and the offsets within a character belong to the region of
the character. Searches to the left look up the region of each byte that they come to.

* `regionAt_eq`: the region of a byte is that of its character.
* `openingLoop_eq`: the search for an opening bracket finds what its counterpart finds.
-/

namespace SqlDialect.Bytes

open Text

/-- The offsets of a literal or comment. -/
structure Span where
  start : Nat
  stop : Nat
  deriving DecidableEq, Repr

/-- The literals and comments of a text from an offset on. -/
def opaqueRegions (text : Text) (i : Nat) : Checked (List Span) :=
  if i < byteLength text then
    match _h : skipOpaque text i with
    | some (some next) => do
      let behind ← opaqueRegions text next
      return ⟨i, next⟩ :: behind
    | some none => opaqueRegions text (i + 1)
    | none => none
  else return []
termination_by byteLength text - i
decreasing_by
  · have := skipOpaque_lt _h
    omega
  · omega

/-- The literal or comment that an offset lies in. The regions stand in their order, so those that end before it come
first. -/
def regionAt (rs : List Span) (i : Nat) : Option Span :=
  (rs.dropWhile (·.stop ≤ i)).head?.filter fun r => r.start ≤ i && i < r.stop

theorem regionAt_le {rs : List Span} {r : Span} {i : Nat} (h : regionAt rs i = some r) : r.start ≤ i := by
  have hcover := (Option.filter_eq_some_iff.mp h).2
  simp only [Bool.and_eq_true, decide_eq_true_eq] at hcover
  exact hcover.1

variable {text rest : Text} {c : Char} {i j : Nat}

/-- The offsets of a region. -/
def span (text : Text) (r : Region) : Span := ⟨byteOffset text r.start, byteOffset text r.stop⟩

/-- The offsets of all regions of a text. -/
def spans (text : Text) : List Span := (regions text).map (span text)

/-! ## The table -/

theorem opaqueRegions_of_byte {b : Char} (hb : byte? text i = some b) :
    opaqueRegions text i = (do
      match ← skipOpaque text i with
      | some next => return ⟨i, next⟩ :: (← opaqueRegions text next)
      | none => opaqueRegions text (i + 1)) := by
  rw [opaqueRegions, if_pos (lt_of_byte? hb)]
  rcases skipOpaque text i with _ | _ | next <;> rfl

theorem opaqueRegions_from (hi : i ≤ text.length) (h : text.drop i = rest) :
    opaqueRegions text (byteOffset text i) = some ((regionsFrom i (pieces rest)).map (span text)) := by
  fun_induction pieces rest generalizing i with
  | case1 =>
    rw [opaqueRegions, if_neg (by rw [byteOffset_of_le (List.drop_eq_nil_iff.mp h)]; omega)]
    rfl
  | case2 c rest kind n hr ih =>
    obtain ⟨hle, hdrop⟩ := next_of_regionTail? h hr
    obtain ⟨b, hb⟩ := exists_byte? h
    have hlen : (c :: rest.take n).length = n + 1 := by
      rw [List.length_cons, List.length_take, Nat.min_eq_left (lt_of_regionTail? hr)]
    rw [opaqueRegions_of_byte hb, skipOpaque_eq h, hr]
    simp only [Option.map_some, Option.bind_eq_bind, Option.bind_some, ih hle hdrop, regionsFrom, hlen, List.map_cons]
    rfl
  | case3 c rest hr ih =>
    have hstep : opaqueRegions text (byteOffset text i) = opaqueRegions text (byteOffset text (i + 1)) := by
      by_cases hw : Wide c
      · refine step_wide h hw fun j b hb hwb => ?_
        rw [opaqueRegions_of_byte hb, skipOpaque_wide hb hwb]
        rfl
      · rw [opaqueRegions_of_byte (byte?_byteOffset h hw), skipOpaque_eq h, hr, byteOffset_succ_of_not_wide h hw]
        rfl
    rw [hstep, ih (lt_of_drop h) (drop_succ h)]
    rfl

theorem opaqueRegions_eq (text : Text) : opaqueRegions text 0 = some (spans text) := by
  have h := opaqueRegions_from (Nat.zero_le text.length) (List.drop_zero)
  rwa [byteOffset_zero] at h

/-- Since regions stand in their order, one that covers a position is the first that ends behind it. -/
theorem regionAt?_eq_head? (start : Nat) (ps : List Piece) (i : Nat) :
    ((regionsFrom start ps).dropWhile (·.stop ≤ i)).head?.filter (·.covers i) = regionAt? (regionsFrom start ps) i := by
  induction ps generalizing start with
  | nil => rfl
  | cons p ps ih =>
    cases p with
    | code c => exact ih (start + 1)
    | region kind t =>
      rw [regionsFrom]
      by_cases hstop : start + t.length ≤ i
      · have hno : Region.covers ⟨kind, start, start + t.length⟩ i = false := by
          simp only [Region.covers, Bool.and_eq_false_iff, decide_eq_false_iff_not]
          omega
        rw [List.dropWhile_cons_of_pos (by simpa using hstop), ih, regionAt?, regionAt?,
          List.find?_cons_of_neg (by simp [hno])]
      · rw [List.dropWhile_cons_of_neg (by simpa using hstop), List.head?_cons]
        by_cases hstart : start ≤ i
        · have hyes : Region.covers ⟨kind, start, start + t.length⟩ i = true := by
            simp only [Region.covers, Bool.and_eq_true, decide_eq_true_eq]
            omega
          rw [Option.filter_some, if_pos hyes, regionAt?, List.find?_cons_of_pos (by exact hyes)]
        · have hno : Region.covers ⟨kind, start, start + t.length⟩ i = false := by
            simp only [Region.covers, Bool.and_eq_false_iff, decide_eq_false_iff_not]
            omega
          have hbefore : regionAt? (regionsFrom (start + t.length) ps) i = none := Interval.regionAt?_before (by omega)
          rw [Option.filter_some, if_neg (by simp [hno]), regionAt?, List.find?_cons_of_neg (by simp [hno])]
          exact hbefore.symm

/-- The region of a byte is that of its character. -/
theorem regionAt_eq (hi : i < text.length) (h₁ : byteOffset text i ≤ j) (h₂ : j < byteOffset text (i + 1)) :
    regionAt (spans text) j = (regionAt? (regions text) i).map (span text) := by
  have hle : ∀ k, byteOffset text k ≤ j ↔ k ≤ i := fun k => by
    constructor
    · intro hk
      have := (byteOffset_lt_iff hi).mp (Nat.lt_of_le_of_lt hk h₂)
      omega
    · intro hk
      exact Nat.le_trans (byteOffset_mono hk) h₁
  rw [regionAt, spans, List.dropWhile_map, List.head?_map, Option.filter_map, regions, ← regionAt?_eq_head? 0]
  have hstop : ((fun r : Span => decide (r.stop ≤ j)) ∘ span text) = fun r => decide (r.stop ≤ i) := by
    funext r
    simp only [Function.comp_apply, span, hle]
  have hcovers : ((fun r : Span => decide (r.start ≤ j) && decide (j < r.stop)) ∘ span text) = (·.covers i) := by
    funext r
    have hlt : j < byteOffset text r.stop ↔ i < r.stop := by
      have := hle r.stop
      omega
    simp only [Function.comp_apply, span, hle, hlt, Region.covers]
  rw [hstop, hcovers]

/-! ## The marks before a position -/

/-- The piece that a position lies in. -/
theorem exists_piece (hi : i < text.length) : ∃ ms p ns, pieces text = ms ++ p :: ns ∧ (textOf ms).length ≤ i ∧
    i < (textOf ms).length + p.text.length := by
  have key : ∀ (ps : List Piece) (k : Nat), k < (textOf ps).length → ∃ ms p ns, ps = ms ++ p :: ns ∧
      (textOf ms).length ≤ k ∧ k < (textOf ms).length + p.text.length := fun ps => by
    induction ps with
    | nil => exact fun k hk => absurd hk (by simp)
    | cons p ps ih =>
      intro k hk
      by_cases hp : k < p.text.length
      · exact ⟨[], p, ps, rfl, Nat.zero_le _, by simpa using hp⟩
      · rw [textOf_cons, List.length_append] at hk
        obtain ⟨ms, q, ns, rfl, h₁, h₂⟩ := ih (k - p.text.length) (by omega)
        refine ⟨p :: ms, q, ns, rfl, ?_, ?_⟩ <;> rw [textOf_cons, List.length_append] <;> omega
  exact key (pieces text) i (by rwa [textOf_pieces])

theorem marksOf_append (ps qs : List Piece) : marksOf (ps ++ qs) = marksOf ps ++ marksOf qs := by
  induction ps with
  | nil => rfl
  | cons p ps ih => cases p <;> simp [marksOf, ih]

/-- The mark in front of a position says whether a region covers it. -/
theorem marksBefore_succ (h : text.drop i = c :: rest) :
    marksBefore text (i + 1) = ⟨c, (regionAt? (regions text) i).isNone⟩ :: marksBefore text i := by
  have hi := lt_of_drop h
  have hlen : i < (marks text).length := by rwa [length_marks]
  have hchar : (marks text)[i].char = c := by
    have hget : ((marks text).map Mark.char)[i]? = some c := by
      rw [map_char_marks, ← List.head?_drop, h]
      rfl
    rw [List.getElem?_map, List.getElem?_eq_getElem hlen] at hget
    exact Option.some.inj hget
  have hcode : (marks text)[i].isCode = (regionAt? (regions text) i).isNone := by
    obtain ⟨ms, p, ns, hp, h₁, h₂⟩ := exists_piece hi
    rw [Interval.regionAt?_piece hp h₁ h₂]
    have hsplit : marks text = marksOf ms ++ marksOf (p :: ns) := by rw [marks, hp, marksOf_append]
    have hms : (marksOf ms).length = (textOf ms).length := by
      rw [← map_char_marksOf, List.length_map]
    have hget : (marks text)[i]? = (marksOf (p :: ns))[i - (textOf ms).length]? := by
      rw [hsplit, List.getElem?_append_right (by omega), hms]
    rw [List.getElem?_eq_getElem hlen] at hget
    cases p with
    | code d =>
      have hzero : i - (textOf ms).length = 0 := by
        simp only [Piece.text, List.length_singleton] at h₂
        omega
      rw [hzero, marksOf] at hget
      rw [Option.some.inj hget]
      rfl
    | region kind t =>
      simp only [Piece.text] at h₂
      have hlt : i - (textOf ms).length < t.length := by omega
      rw [marksOf, List.getElem?_append_left (by rwa [List.length_map]), List.getElem?_map,
        List.getElem?_eq_getElem hlt] at hget
      rw [Option.some.inj hget]
      rfl
  rw [marksBefore, List.take_succ_eq_append_getElem hlen, List.reverse_append, List.reverse_singleton,
    List.singleton_append, marksBefore]
  congr 1
  rw [← hchar, ← hcode]

theorem length_marksBefore (hi : i ≤ text.length) : (marksBefore text i).length = i := by
  rw [marksBefore, List.length_reverse, List.length_take, length_marks, Nat.min_eq_left hi]

/-- What passes over the marks of regions passes over a region. -/
theorem skip_region {α : Type} {f : List Mark → α} (hf : ∀ c before, f (⟨c, false⟩ :: before) = f before)
    (hi : i < text.length) {r : Region} (h : regionAt? (regions text) i = some r) :
    f (marksBefore text (i + 1)) = f (marksBefore text r.start) := by
  obtain ⟨hstart, hstop⟩ := regionAt?_covers h
  have hsteps : ∀ k, r.start + k ≤ i + 1 → f (marksBefore text (r.start + k)) = f (marksBefore text r.start) := by
    intro k
    induction k with
    | zero => exact fun _ => rfl
    | succ k ih =>
      intro hk
      have hlt : r.start + k < text.length := by omega
      -- a position of the region is covered
      have hcover : (regionAt? (regions text) (r.start + k)).isNone = false := by
        rw [regionAt?, Option.isNone_eq_false_iff, List.find?_isSome]
        refine ⟨r, List.mem_of_find?_eq_some h, ?_⟩
        simp only [Region.covers, Bool.and_eq_true, decide_eq_true_eq]
        omega
      rw [← Nat.add_assoc, marksBefore_succ (List.drop_eq_getElem_cons hlt), hcover, hf]
      exact ih (by omega)
  have := hsteps (i + 1 - r.start) (by omega)
  rwa [show r.start + (i + 1 - r.start) = i + 1 by omega] at this

/-! ## Searching to the left -/

/-- The search for the bracket that opens the last of `stack`, in front of an offset. -/
def openingLoop (text : Text) (rs : List Span) (stack : List Char) (i : Nat) : Checked (Option Nat) :=
  if 0 < i then
    match _h : minus i 1 with
    | none => none
    | some before =>
      match _r : regionAt rs before with
      | some r => openingLoop text rs stack r.start
      | none => do
        let b ← byte? text before
        if isCloser b then openingLoop text rs (b :: stack) before
        else
          match closerOf? b, stack with
          | none, _ => openingLoop text rs stack before
          | some _, [] => return none
          | some d, top :: outer =>
            if top ≠ d then return none
            else if outer.isEmpty then return some before
            else openingLoop text rs outer before
  else return none
termination_by i
decreasing_by
  · exact Nat.lt_of_le_of_lt (regionAt_le _r) (lt_of_minus _h)
  all_goals exact lt_of_minus _h

/-- A step of the search. -/
theorem openingLoop_of_pos (rs : List Span) (stack : List Char) (hi : 0 < i) :
    openingLoop text rs stack i = (do
      match regionAt rs (i - 1) with
      | some r => openingLoop text rs stack r.start
      | none =>
        let b ← byte? text (i - 1)
        if isCloser b then openingLoop text rs (b :: stack) (i - 1)
        else
          match closerOf? b, stack with
          | none, _ => openingLoop text rs stack (i - 1)
          | some _, [] => return none
          | some d, top :: outer =>
            if top ≠ d then return none
            else if outer.isEmpty then return some (i - 1)
            else openingLoop text rs outer (i - 1)) := by
  rw [openingLoop, if_pos hi, minus_of_le hi]
  simp only
  rcases regionAt rs (i - 1) with _ | r <;> rfl

/-- The offset of the delimiter that opens the one at an offset. -/
def findOpening (text : Text) (i : Nat) : Checked (Option Nat) :=
  match byte? text i with
  | none => return none
  | some b => do
    let rs ← opaqueRegions text 0
    if isQuote b then
      match regionAt rs i with
      | none => return none
      | some r =>
        if r.stop = i + 1 then do
          let first ← byte? text r.start
          return if first = b then some r.start else none
        else return none
    else if isCloser b then openingLoop text rs [b] i
    else return none

theorem openingLoop_lt {rs : List Span} {stack : List Char} (h : openingLoop text rs stack i = some (some j)) :
    j < i := by
  induction i using Nat.strongRecOn generalizing stack with
  | ind i ih =>
    rcases Nat.eq_zero_or_pos i with rfl | hi
    · rw [openingLoop, if_neg (Nat.lt_irrefl 0)] at h
      cases h
    · have hback : i - 1 < i := Nat.sub_lt hi Nat.one_pos
      have hih : ∀ {stack}, openingLoop text rs stack (i - 1) = some (some j) → j < i := fun h =>
        Nat.lt_trans (ih _ hback h) hback
      rw [openingLoop_of_pos rs stack hi] at h
      split at h
      · next r hr =>
        have hle := regionAt_le hr
        have := ih r.start (by omega) h
        omega
      · obtain ⟨b, -, h⟩ := Option.bind_eq_some_iff.mp h
        split at h
        · exact hih h
        · split at h
          · exact hih h
          · cases h
          · split at h
            · cases h
            · split at h
              · cases h
                exact hback
              · exact hih h

/-- An opening delimiter does not stand behind its closing one. -/
theorem findOpening_le (h : findOpening text i = some (some j)) : j ≤ i := by
  unfold findOpening at h
  split at h
  · cases h
  · obtain ⟨rs, -, h⟩ := Option.bind_eq_some_iff.mp h
    split at h
    · split at h
      · cases h
      · next r hr =>
        split at h
        · obtain ⟨first, -, h⟩ := Option.bind_eq_some_iff.mp h
          split at h
          · cases h
            exact regionAt_le hr
          · cases h
        · cases h
    · split at h
      · exact Nat.le_of_lt (openingLoop_lt h)
      · cases h

/-- A step to the left from behind a character: to the region that the character lies in, or to its last byte. -/
theorem step_left (h : text.drop i = c :: rest) :
    0 < byteOffset text (i + 1) ∧
      regionAt (spans text) (byteOffset text (i + 1) - 1) = (regionAt? (regions text) i).map (span text) := by
  have hlt := byteOffset_lt_succ (lt_of_drop h)
  exact ⟨by omega, regionAt_eq (lt_of_drop h) (by omega) (by omega)⟩

/-- A step to the left from behind a character of ASCII that is code. -/
theorem step_code_left (h : text.drop i = c :: rest) (hr : regionAt? (regions text) i = none) (hw : ¬ Wide c) :
    0 < byteOffset text (i + 1) ∧ byteOffset text (i + 1) - 1 = byteOffset text i ∧
      regionAt (spans text) (byteOffset text i) = none := by
  obtain ⟨hpos, hregion⟩ := step_left h
  have hlast : byteOffset text (i + 1) - 1 = byteOffset text i := by
    rw [byteOffset_succ_of_not_wide h hw, Nat.add_sub_cancel]
  rw [hlast, hr] at hregion
  exact ⟨hpos, hlast, hregion⟩

/-- A search to the left that passes over every byte beyond ASCII passes over a character beyond ASCII. -/
theorem step_wide_left {α : Type} {f : Nat → Checked α} (h : text.drop i = c :: rest) (hc : Wide c)
    (hr : regionAt? (regions text) i = none)
    (hf : ∀ j b, regionAt (spans text) j = none → byte? text j = some b → Wide b → f (j + 1) = f j) :
    f (byteOffset text (i + 1)) = f (byteOffset text i) := by
  have hsteps : ∀ k ≤ c.utf8Size, f (byteOffset text i + k) = f (byteOffset text i) := by
    intro k
    induction k with
    | zero => exact fun _ => rfl
    | succ k ih =>
      intro hk
      obtain ⟨b, hb, hw⟩ := byte?_wide h hc hk
      have hregion : regionAt (spans text) (byteOffset text i + k) = none := by
        rw [regionAt_eq (lt_of_drop h) (Nat.le_add_right ..) (by rw [byteOffset_succ h]; omega), hr]
        rfl
      rw [← Nat.add_assoc, hf _ b hregion hb hw, ih (Nat.le_of_succ_le hk)]
  rw [byteOffset_succ h, hsteps _ (Nat.le_refl _)]

section Opening

variable (stack : List Char)

/-- A literal or comment is passed over. -/
theorem openingLoop_region (h : text.drop i = c :: rest) {r : Region} (hr : regionAt? (regions text) i = some r) :
    openingLoop text (spans text) stack (byteOffset text (i + 1)) =
      openingLoop text (spans text) stack (byteOffset text r.start) := by
  obtain ⟨hpos, hregion⟩ := step_left h
  rw [openingLoop_of_pos _ _ hpos, hregion, hr]
  rfl

/-- A character beyond ASCII is passed over. -/
theorem openingLoop_wide (h : text.drop i = c :: rest) (hr : regionAt? (regions text) i = none) (hw : Wide c) :
    openingLoop text (spans text) stack (byteOffset text (i + 1)) =
      openingLoop text (spans text) stack (byteOffset text i) :=
  step_wide_left h hw hr fun j b hj hb hwb => by
    rw [openingLoop_of_pos _ _ (Nat.succ_pos j)]
    simp only [Option.bind_eq_bind, Option.bind_some, Nat.succ_sub_one, hj, hb, isCloser_of_wide hwb,
      closerOf?_of_wide hwb]
    rfl

/-- At a character of ASCII that is code. -/
theorem openingLoop_code (h : text.drop i = c :: rest) (hr : regionAt? (regions text) i = none) (hw : ¬ Wide c) :
    openingLoop text (spans text) stack (byteOffset text (i + 1)) =
      if isCloser c then openingLoop text (spans text) (c :: stack) (byteOffset text i)
      else
        match closerOf? c, stack with
        | none, _ => openingLoop text (spans text) stack (byteOffset text i)
        | some _, [] => some none
        | some d, top :: outer =>
          if top ≠ d then some none
          else if outer.isEmpty then some (some (byteOffset text i))
          else openingLoop text (spans text) outer (byteOffset text i) := by
  obtain ⟨hpos, hlast, hregion⟩ := step_code_left h hr hw
  rw [openingLoop_of_pos _ _ hpos, hlast]
  simp only [Option.bind_eq_bind, Option.bind_some, hregion, byte?_byteOffset h hw]
  rfl

end Opening

/-- The search for an opening bracket, to the left from a position. -/
theorem openingLoop_eq (stack : List Char) (hi : i ≤ text.length) :
    openingLoop text (spans text) stack (byteOffset text i) =
      some ((openingIn stack (marksBefore text i)).map (byteOffset text)) := by
  induction i using Nat.strongRecOn generalizing stack with
  | ind i ih =>
    cases i with
    | zero =>
      rw [openingLoop, byteOffset_zero, if_neg (Nat.lt_irrefl 0)]
      rfl
    | succ i =>
      have h := List.drop_eq_getElem_cons hi
      generalize text[i] = c at h
      have hcode := marksBefore_succ h
      cases hr : regionAt? (regions text) i with
      | some r =>
        have hstart := (regionAt?_covers hr).1
        rw [openingLoop_region stack h hr, skip_region (f := openingIn stack) (fun _ _ => rfl) hi hr,
          ih _ (by omega) stack (Nat.le_trans hstart (Nat.le_of_lt hi))]
      | none =>
        rw [hr] at hcode
        rw [hcode]
        by_cases hw : Wide c
        · have hpass : openingIn stack (⟨c, true⟩ :: marksBefore text i) = openingIn stack (marksBefore text i) := by
            simp [openingIn, isCloser_of_wide hw, closerOf?_of_wide hw]
          rw [openingLoop_wide stack h hr hw, Option.isNone_none, hpass, ih i (Nat.lt_succ_self i) stack (Nat.le_of_lt hi)]
        · have hih := fun stack => ih i (Nat.lt_succ_self i) stack (Nat.le_of_lt hi)
          rw [openingLoop_code stack h hr hw]
          simp only [Option.isNone_none, openingIn, hih]
          by_cases hcloser : isCloser c = true
          · rw [if_pos hcloser, if_pos hcloser]
          · rw [if_neg hcloser, if_neg hcloser]
            cases closerOf? c with
            | none => rfl
            | some d =>
              cases stack with
              | nil => rfl
              | cons top outer =>
                by_cases htop : top = d
                · cases hempty : outer.isEmpty with
                  | false => simp [htop, hempty]
                  | true => simp [htop, hempty, length_marksBefore (Nat.le_of_lt hi)]
                · simp [htop]

/-- The opening bracket for a closing one that is code. A quote that is code has no partner. -/
theorem findOpening_eq (h : text.drop i = c :: rest) (hw : ¬ Wide c) (hr : regionAt? (regions text) i = none) :
    findOpening text (byteOffset text i) =
      some (if isQuote c then none
        else if isCloser c then (openingIn [c] (marksBefore text i)).map (byteOffset text) else none) := by
  have hi := lt_of_drop h
  have hregion : regionAt (spans text) (byteOffset text i) = none := by
    rw [regionAt_eq hi (Nat.le_refl _) (byteOffset_lt_succ hi), hr]
    rfl
  rw [findOpening, byte?_byteOffset h hw]
  simp only [opaqueRegions_eq, Option.bind_eq_bind, Option.bind_some, hregion, openingLoop_eq [c] (Nat.le_of_lt hi)]
  split
  · rfl
  · split <;> rfl

end SqlDialect.Bytes
