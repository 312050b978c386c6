import Mathlib.Data.List.Basic
import Mathlib.Data.List.Find
import Mathlib.Data.List.Induction
import SqlDialect.Proofs.FunctionName.Token
import SqlDialect.Proofs.Interval.Level

/-!
# All calls at once

The renamings go through the text one after the other, each on what the one before has written. Together they do what
one look at the text tells: where a call stands outside literals and comments, its new name is written, and all other
characters stay. The literals and comments are the same, moved by what has been written in front of them.

* `IsTokens.startsKeyword_iff`: a name stands at the start of a call or word, and nowhere else.
* `IsTokens.flatMap_written`: what is written for the characters of some tokens are these tokens with their new names.
* `callAt?_eq_some_iff`: the calls that are renamed.
* `convert_eq_simultaneous`: the renamings are one simultaneous replacement.
-/

namespace SqlDialect

theorem regionsFrom_append (start : Nat) (ps qs : List Piece) :
    regionsFrom start (ps ++ qs) = regionsFrom start ps ++ regionsFrom (start + (textOf ps).length) qs := by
  induction ps generalizing start with
  | nil => rfl
  | cons p ps ih =>
    rw [textOf_cons, List.length_append, ← Nat.add_assoc]
    cases p with
    | code c => exact ih (start + 1)
    | region kind t =>
      rw [List.cons_append, regionsFrom, regionsFrom, ih]
      rfl

namespace FunctionName

/-! ## Names by their position -/

/-- The name that a token starts with. -/
def Token.name? : Token → Option Text
  | call v => some v
  | word v => some v
  | piece _ => none

namespace IsTokens

variable {text : Text} {xs ys : List Token} {t : Token}

/-- What stands behind some tokens is read as the others. -/
theorem suffix (h : IsTokens text (xs ++ ys)) : IsTokens (textOf (piecesOf ys)) ys := by
  induction xs generalizing text with
  | nil =>
    rw [List.nil_append] at h
    rwa [h.textOf_eq]
  | cons x xs ih => exact ih h.tail

theorem text_append (h : IsTokens text (xs ++ ys)) : text = textOf (piecesOf xs) ++ textOf (piecesOf ys) := by
  rw [← textOf_append, ← piecesOf_append, h.textOf_eq]

/-- No word character stands in front of a call or word. -/
theorem last (h : IsTokens text (xs ++ ys)) (hstarts : ¬ StartsOutsideWord ys) :
    (textOf (piecesOf xs)).getLast?.any isWord = false := by
  rcases xs.eq_nil_or_concat with rfl | ⟨xs, x, rfl⟩
  · rfl
  · have hlast : ∀ {d : Char}, (textOf x.toPieces).getLast? = some d → isWord d = false →
        (textOf (piecesOf (xs ++ [x]))).getLast?.any isWord = false := fun hd hw => by
      rw [piecesOf_append, textOf_append, List.getLast?_append, piecesOf_cons, piecesOf_nil, List.append_nil, hd]
      exact hw
    rw [List.concat_eq_append, List.append_assoc] at h
    rw [List.concat_eq_append]
    have hx : IsTokens _ (x :: ys) := h.suffix
    cases x with
    | call v => exact hlast (d := '(') (by rw [textOf_call, List.getLast?_concat]) (by decide)
    | word v =>
      cases hx.whole with
      | word _ hend _ => exact absurd hend.startsOutsideWord hstarts
    | piece p =>
      cases p with
      | code c =>
        cases hx.whole with
        | piece hnot _ => exact hlast (d := c) rfl hnot
      | region kind u =>
        have hp := hx.pieces_piece
        have hend := isWord_of_region hp (hx.tail.head_word hstarts)
        have hne := region_ne_nil (hp.symm ▸ List.mem_cons_self)
        rw [Piece.text, List.getLast?_eq_some_getLast hne] at hend
        exact hlast ((congrArg _ (textOf_piece _)).trans (List.getLast?_eq_some_getLast hne)) hend

theorem pieces_split (h : IsTokens text (xs ++ t :: ys)) :
    pieces text = piecesOf xs ++ (t.toPieces ++ piecesOf ys) := by
  rw [h.pieces_eq, piecesOf_append, piecesOf_cons]

theorem text_split (h : IsTokens text (xs ++ t :: ys)) :
    text = textOf (piecesOf xs) ++ (textOf t.toPieces ++ textOf (piecesOf ys)) := by
  rw [h.text_append, piecesOf_cons, textOf_append]

/-- What stands in front of a place in a token. -/
theorem take_within (h : IsTokens text (xs ++ t :: ys)) {k : Nat} (hk : k ≤ (textOf t.toPieces).length) :
    text.take ((textOf (piecesOf xs)).length + k) = textOf (piecesOf xs) ++ (textOf t.toPieces).take k := by
  rw [h.text_split, List.take_length_add_append, List.take_append_of_le_length hk]

/-- What stands from a place in a token on. -/
theorem drop_within (h : IsTokens text (xs ++ t :: ys)) {k : Nat} (hk : k ≤ (textOf t.toPieces).length) :
    text.drop ((textOf (piecesOf xs)).length + k) = (textOf t.toPieces).drop k ++ textOf (piecesOf ys) := by
  rw [h.text_split, List.drop_length_add_append, List.drop_append_of_le_length hk]

/-- At the name that a token starts with, no other name stands and none starts within it. -/
theorem startsKeyword_name (h : IsTokens text (xs ++ t :: ys)) {v w : Text} {ss : List Piece} (hw : IsName w)
    (hv : IsName v) (hss : t.toPieces = v.map .code ++ ss) {k : Nat} (hk : k ≤ v.length)
    (hhead : (textOf ss ++ textOf (piecesOf ys)).head?.any isWord = false) (hstarts : ¬ StartsOutsideWord (t :: ys)) :
    regionAt? (regions text) ((textOf (piecesOf xs)).length + k) = none ∧
        startsKeyword w (text.take ((textOf (piecesOf xs)).length + k)).getLast?
          (text.drop ((textOf (piecesOf xs)).length + k)) = true ↔
      k = 0 ∧ Text.lower v = Text.lower w := by
  have hsplit : textOf t.toPieces = v ++ textOf ss := by rw [hss, textOf_append, textOf_map_code]
  have hle : k ≤ (textOf t.toPieces).length := by
    rw [hsplit, List.length_append]
    exact Nat.le_add_right_of_le hk
  rw [h.take_within hle, h.drop_within hle]
  cases k with
  | zero =>
    obtain ⟨c, v, rfl⟩ := List.exists_cons_of_ne_nil hv.1
    have hcode : regionAt? (regions text) ((textOf (piecesOf xs)).length + 0) = none := by
      have hp := h.pieces_split
      rw [hss, List.map_cons, List.cons_append, List.cons_append] at hp
      exact (Interval.code_at hp rfl).2
    rw [List.take_zero, List.append_nil, List.drop_zero, hsplit, List.append_assoc]
    refine ⟨fun hs => ⟨rfl, ?_⟩, fun hl => ⟨hcode, startsKeyword_of_lower_eq hl.2 (h.last hstarts) hhead⟩⟩
    have hlower := lower_takeWhile_of_startsKeyword hw.1 hw.2 hs.2
    rwa [takeWhile_whole hv.2 hhead] at hlower
  | succ k =>
    -- a word character stands in front
    have hne : v.take (k + 1) ≠ [] := by simpa using hv.1
    have hlast : (textOf (piecesOf xs) ++ (textOf t.toPieces).take (k + 1)).getLast? =
        some ((v.take (k + 1)).getLast hne) := by
      rw [hsplit, List.take_append_of_le_length hk, List.getLast?_append, List.getLast?_eq_some_getLast hne,
        Option.some_or]
    rw [hlast, startsKeyword_behind_word hw.1 hw.2 (hv.2 _ (List.mem_of_mem_take (List.getLast_mem hne)))]
    simp

/-- **A name stands at the start of a call or word**, and nowhere else. -/
theorem startsKeyword_iff (h : IsTokens text (xs ++ t :: ys)) {w : Text} (hw : IsName w) {k : Nat}
    (hk : k < (textOf t.toPieces).length) :
    regionAt? (regions text) ((textOf (piecesOf xs)).length + k) = none ∧
        startsKeyword w (text.take ((textOf (piecesOf xs)).length + k)).getLast?
          (text.drop ((textOf (piecesOf xs)).length + k)) = true ↔
      k = 0 ∧ ∃ v, t.name? = some v ∧ Text.lower v = Text.lower w := by
  have hsuffix : IsTokens _ (t :: ys) := h.suffix
  cases t with
  | call v =>
    have hv : IsName v := by cases hsuffix.whole; assumption
    rw [textOf_call, List.length_append] at hk
    have hiff := @startsKeyword_name _ _ _ _ h v w [.code '('] hw hv rfl k (Nat.le_of_lt_succ hk) rfl id
    simpa [Token.name?] using hiff
  | word v =>
    cases hsuffix.whole with
    | word hv hend _ =>
      rw [textOf_word] at hk
      have hiff := @startsKeyword_name _ _ _ _ h v w [] hw hv (by simp [Token.toPieces]) k (Nat.le_of_lt hk)
        (hsuffix.tail.head hend.startsOutsideWord) id
      simpa [Token.name?] using hiff
  | piece p =>
    refine ⟨fun hs => ?_, fun hs => by obtain ⟨-, v, hv, -⟩ := hs; cases hv⟩
    cases p with
    | region kind u =>
      rw [textOf_piece] at hk
      have hr := Interval.regionAt?_piece h.pieces_split (Nat.le_add_right _ k) (Nat.add_lt_add_left hk _)
      rw [hs.1] at hr
      cases hr
    | code c =>
      obtain rfl : k = 0 := Nat.lt_one_iff.mp hk
      have hnot : isWord c = false := by cases hsuffix.whole; assumption
      have hlower := lower_takeWhile_of_startsKeyword hw.1 hw.2 hs.2
      rw [h.drop_within (Nat.zero_le _), List.drop_zero, textOf_piece, Piece.text, List.singleton_append,
        List.takeWhile_cons_of_neg (by simp [hnot])] at hlower
      exact absurd (List.map_eq_nil_iff.mp hlower.symm) hw.1

end IsTokens

/-! ## The calls of a text -/

/-- The renaming of the call at position `i`: outside literals and comments stands a name with its parenthesis, in any
letter case, and no word character in front of it. -/
def callAt? (text : Text) (i : Nat) : Option Rename :=
  renames.find? fun r =>
    (regionAt? (regions text) i).isNone && startsKeyword r.old (text.take i).getLast? (text.drop i)

/-- Does a call that starts in front of position `i` reach over it? -/
def isCovered (text : Text) (i : Nat) : Bool :=
  (List.range i).any fun j => (callAt? text j).any fun r => i < j + r.old.length

/-- What is written for the character at position `i`: at a call the new name with its parenthesis, nothing within a
call, and elsewhere the character itself. -/
def written (text : Text) (i : Nat) : Text :=
  match callAt? text i with
  | some r => r.new
  | none => if isCovered text i then [] else text[i]?.toList

/-- The text with all its calls renamed at once. -/
def simultaneous (text : Text) : Text := (List.range text.length).flatMap (written text)

/-- The position in the new text of what stands at position `i`. -/
def moved (text : Text) (i : Nat) : Nat := ((List.range i).flatMap (written text)).length

/-- The region where it stands in the new text. -/
def movedRegion (text : Text) (r : Region) : Region :=
  ⟨r.kind, moved text r.start, moved text r.start + (r.stop - r.start)⟩

/-- The renaming of a token. -/
def Token.renaming? : Token → Option Rename
  | call v => renameOf? v
  | word _ => none
  | piece _ => none

/-- A call that is renamed is as long as the old name, and becomes the new one. -/
theorem Token.of_renaming {t : Token} {r : Rename} (h : t.renaming? = some r) :
    r ∈ renames ∧ r.old.length = (textOf t.toPieces).length ∧ r.new = textOf (t.rename newName).toPieces := by
  cases t with
  | call v =>
    have hr := List.mem_of_find?_eq_some h
    have hl : Text.lower v = Text.lower r.old.dropLast := by simpa using List.find?_some h
    obtain ⟨⟨hold, -⟩, hnew, -⟩ := renames_spelled r hr
    have hname : newName v = r.new.dropLast := by
      rw [newName, show renameOf? v = some r from h]
      rfl
    refine ⟨hr, ?_, ?_⟩
    · rw [hold, textOf_call, List.length_append, List.length_append, length_eq_of_lower_eq hl]
    · rw [Token.rename, textOf_call, hname, ← hnew]
  | word v => cases h
  | piece p => cases h

theorem Token.rename_of_none {t : Token} (h : t.renaming? = none) : t.rename newName = t := by
  cases t with
  | call v => rw [Token.rename, newName, show renameOf? v = none from h]; rfl
  | word v => rfl
  | piece p => rfl

theorem flatMap_getElem? (t : Text) : (List.range t.length).flatMap (fun k => t[k]?.toList) = t := by
  induction t with
  | nil => rfl
  | cons c t ih =>
    rw [List.length_cons, List.range_succ_eq_map, List.flatMap_cons, List.flatMap_map]
    simpa using ih

theorem startsKeyword_parenthesis_iff {w : Text} (hw : IsName w) {before : Option Char} {text : Text} :
    startsKeyword (w ++ ['(']) before text = true ↔
      startsKeyword w before text = true ∧ (text.drop w.length).head? = some '(' := by
  rw [startsKeyword_call_iff hw]
  constructor
  · rintro ⟨hb, v, u, rfl, hv⟩
    refine ⟨startsKeyword_of_lower_eq hv hb (by rfl), ?_⟩
    rw [← length_eq_of_lower_eq hv, List.drop_left]
    rfl
  · rintro ⟨hs, hhead⟩
    obtain ⟨v, u, rfl, hv⟩ := starts_iff.mp (starts_of_startsKeyword hs)
    rw [← length_eq_of_lower_eq hv, List.drop_left] at hhead
    obtain ⟨u, rfl⟩ := List.head?_eq_some_iff.mp hhead
    exact ⟨before_of_startsKeyword hw.1 hw.2 hs, v, u, rfl, hv⟩

/-- No two of the names stand at one place. -/
theorem eq_of_startsKeyword {r r' : Rename} (hr : r ∈ renames) (hr' : r' ∈ renames) {before : Option Char} {text : Text}
    (h : startsKeyword r.old before text = true) (h' : startsKeyword r'.old before text = true) : r = r' := by
  have hname : ∀ r ∈ renames, startsKeyword r.old before text = true →
      Text.lower (text.takeWhile isWord) = Text.lower r.old.dropLast := fun r hr h => by
    obtain ⟨⟨hold, hname⟩, -⟩ := renames_spelled r hr
    rw [hold, startsKeyword_parenthesis_iff hname] at h
    exact lower_takeWhile_of_startsKeyword hname.1 hname.2 h.1
  have hdistinct : ∀ r ∈ renames, ∀ r' ∈ renames, Text.lower r.old.dropLast = Text.lower r'.old.dropLast → r = r' := by
    decide +kernel
  exact hdistinct r hr r' hr' ((hname r hr h).symm.trans (hname r' hr' h'))

/-- **The calls that are renamed**, with their new names: `if` becomes `iif`, `std` and `stddev` become `stdev`. -/
theorem callAt?_eq_some_iff {text : Text} {i : Nat} {r : Rename} :
    callAt? text i = some r ↔
      (r = ⟨"if(".toList, "iif(".toList⟩ ∨ r = ⟨"std(".toList, "stdev(".toList⟩ ∨
          r = ⟨"stddev(".toList, "stdev(".toList⟩) ∧
        regionAt? (regions text) i = none ∧ startsKeyword r.old (text.take i).getLast? (text.drop i) = true := by
  have hmem : r ∈ renames ↔ r = ⟨"if(".toList, "iif(".toList⟩ ∨ r = ⟨"std(".toList, "stdev(".toList⟩ ∨
      r = ⟨"stddev(".toList, "stdev(".toList⟩ := by simp [renames]
  rw [← hmem, callAt?]
  constructor
  · intro h
    have hs := List.find?_some h
    rw [Bool.and_eq_true, Option.isNone_iff_eq_none] at hs
    exact ⟨List.mem_of_find?_eq_some h, hs⟩
  · rintro ⟨hr, hcode, hs⟩
    have hfound : (renames.find? fun r =>
        (regionAt? (regions text) i).isNone && startsKeyword r.old (text.take i).getLast? (text.drop i)).isSome := by
      rw [List.find?_isSome]
      exact ⟨r, hr, by simp [hcode, hs]⟩
    obtain ⟨r', h⟩ := Option.isSome_iff_exists.mp hfound
    have hs' := List.find?_some h
    rw [Bool.and_eq_true] at hs'
    rw [h, eq_of_startsKeyword (List.mem_of_find?_eq_some h) hr hs'.2 hs]

namespace IsTokens

variable {text : Text} {xs ys : List Token} {t : Token}

/-- What stands behind the name of a call. -/
theorem behind_call {v : Text} (h : IsTokens text (xs ++ .call v :: ys)) :
    text.drop ((textOf (piecesOf xs)).length + v.length) = '(' :: textOf (piecesOf ys) := by
  rw [h.text_append, List.drop_length_add_append, piecesOf_cons, textOf_append, textOf_call, List.append_assoc,
    List.drop_left]
  rfl

/-- What stands behind a word that is no call. -/
theorem behind_word {v : Text} (h : IsTokens text (xs ++ .word v :: ys)) :
    text.drop ((textOf (piecesOf xs)).length + v.length) = textOf (piecesOf ys) := by
  rw [h.text_append, List.drop_length_add_append, piecesOf_cons, textOf_append, textOf_word, List.drop_left]

/-- No parenthesis stands behind a word that is no call. -/
theorem head_behind_word {v : Text} (h : IsTokens text (xs ++ .word v :: ys)) :
    (textOf (piecesOf ys)).head? ≠ some '(' := by
  have hsuffix := h.suffix
  cases hsuffix.whole with
  | word _ hend _ => exact hsuffix.tail.head_ne hend

/-- The name of a call is found where its token starts. -/
theorem startsCall_iff (h : IsTokens text (xs ++ t :: ys)) {r : Rename} (hr : r ∈ renames) {k : Nat}
    (hk : k < (textOf t.toPieces).length) :
    regionAt? (regions text) ((textOf (piecesOf xs)).length + k) = none ∧
        startsKeyword r.old (text.take ((textOf (piecesOf xs)).length + k)).getLast?
          (text.drop ((textOf (piecesOf xs)).length + k)) = true ↔
      k = 0 ∧ ∃ v, t = .call v ∧ Text.lower v = Text.lower r.old.dropLast := by
  obtain ⟨⟨hold, hname⟩, -⟩ := renames_spelled r hr
  conv => lhs; rw [hold]
  rw [startsKeyword_parenthesis_iff hname, ← and_assoc, h.startsKeyword_iff hname hk, List.drop_drop]
  constructor
  · rintro ⟨⟨rfl, v, hv, hl⟩, hparen⟩
    rw [Nat.add_zero, ← length_eq_of_lower_eq hl] at hparen
    cases t with
    | call u =>
      cases hv
      exact ⟨rfl, v, rfl, hl⟩
    | word u =>
      cases hv
      rw [h.behind_word] at hparen
      exact absurd hparen h.head_behind_word
    | piece => cases hv
  · rintro ⟨rfl, v, rfl, hl⟩
    refine ⟨⟨rfl, v, rfl, hl⟩, ?_⟩
    rw [Nat.add_zero, ← length_eq_of_lower_eq hl, h.behind_call]
    rfl

/-- A call stands where its token starts, and nowhere else. -/
theorem callAt?_eq (h : IsTokens text (xs ++ t :: ys)) {k : Nat} (hk : k < (textOf t.toPieces).length) :
    callAt? text ((textOf (piecesOf xs)).length + k) = if k = 0 then t.renaming? else none := by
  have hiff := fun r hr => h.startsCall_iff (r := r) hr hk
  simp only [← Option.isNone_iff_eq_none, ← Bool.and_eq_true] at hiff
  have hnone : (∀ v, t = .call v → k ≠ 0) → callAt? text ((textOf (piecesOf xs)).length + k) = none := fun hne => by
    rw [callAt?, List.find?_eq_none]
    intro r hr hs
    obtain ⟨hk0, v, hv, -⟩ := (hiff r hr).mp hs
    exact hne v hv hk0
  by_cases hk0 : k = 0
  · rw [if_pos hk0]
    cases t with
    | call v =>
      refine List.find?_congr fun r hr => ?_
      rw [Bool.eq_iff_iff, hiff r hr]
      simp [hk0]
    | word v => exact hnone fun _ he => by cases he
    | piece p => exact hnone fun _ he => by cases he
  · rw [if_neg hk0]
    exact hnone fun _ _ => hk0

/-- Every call in front of a token ends there. -/
theorem call_le (h : IsTokens text (xs ++ ys)) {j : Nat} (hj : j < (textOf (piecesOf xs)).length) {r : Rename}
    (hr : callAt? text j = some r) : j + r.old.length ≤ (textOf (piecesOf xs)).length := by
  induction xs using List.reverseRecOn generalizing ys with
  | nil => exact absurd hj (Nat.not_lt_zero _)
  | append_singleton xs t ih =>
    rw [List.append_assoc] at h
    have hlen : (textOf (piecesOf (xs ++ [t]))).length = (textOf (piecesOf xs)).length + (textOf t.toPieces).length := by
      simp
    rw [hlen] at hj ⊢
    by_cases hlt : j < (textOf (piecesOf xs)).length
    · exact (ih h hlt).trans (Nat.le_add_right _ _)
    · obtain ⟨k, rfl⟩ := Nat.exists_eq_add_of_le (Nat.le_of_not_lt hlt)
      have hk : k < (textOf t.toPieces).length := by omega
      rw [h.callAt?_eq hk] at hr
      split at hr
      · rw [(Token.of_renaming hr).2.1]
        omega
      · cases hr

/-- Within a token only a call that is renamed reaches over further characters. -/
theorem isCovered_eq (h : IsTokens text (xs ++ t :: ys)) {k : Nat} (hk : k < (textOf t.toPieces).length) :
    isCovered text ((textOf (piecesOf xs)).length + k) = (decide (0 < k) && t.renaming?.isSome) := by
  rw [Bool.eq_iff_iff, Bool.and_eq_true, decide_eq_true_eq, isCovered, List.any_eq_true]
  constructor
  · rintro ⟨j, hj, hany⟩
    rw [List.mem_range] at hj
    cases hr : callAt? text j with
    | none =>
      rw [hr] at hany
      cases hany
    | some r =>
      have hreach : (textOf (piecesOf xs)).length + k < j + r.old.length := by simpa [hr] using hany
      by_cases hlt : j < (textOf (piecesOf xs)).length
      · have := h.call_le hlt hr
        omega
      · obtain ⟨m, rfl⟩ := Nat.exists_eq_add_of_le (Nat.le_of_not_lt hlt)
        rw [h.callAt?_eq (by omega)] at hr
        split at hr
        · exact ⟨by omega, by rw [hr]; rfl⟩
        · cases hr
  · rintro ⟨hpos, hsome⟩
    obtain ⟨r, hr⟩ := Option.isSome_iff_exists.mp hsome
    refine ⟨(textOf (piecesOf xs)).length, by simpa using hpos, ?_⟩
    have hcall := h.callAt?_eq (k := 0) (by omega)
    rw [Nat.add_zero, if_pos rfl, hr] at hcall
    rw [hcall]
    simpa [(Token.of_renaming hr).2.1] using hk

/-- **What is written for the characters of some tokens** are these tokens with their new names. -/
theorem flatMap_written (h : IsTokens text (xs ++ ys)) :
    (List.range (textOf (piecesOf xs)).length).flatMap (written text) =
      textOf (piecesOf (xs.map (Token.rename newName))) := by
  induction xs using List.reverseRecOn generalizing ys with
  | nil => rfl
  | append_singleton xs t ih =>
    rw [List.append_assoc] at h
    have hlen : (textOf (piecesOf (xs ++ [t]))).length = (textOf (piecesOf xs)).length + (textOf t.toPieces).length := by
      simp
    have htoken : (List.range (textOf t.toPieces).length).flatMap
        (fun k => written text ((textOf (piecesOf xs)).length + k)) = textOf (t.rename newName).toPieces := by
      cases hr : t.renaming? with
      | none =>
        rw [Token.rename_of_none hr]
        refine Eq.trans (List.flatMap_congr fun k hk => ?_) (flatMap_getElem? _)
        have hk := List.mem_range.mp hk
        have hget : text[(textOf (piecesOf xs)).length + k]? = (textOf t.toPieces)[k]? := by
          have htext := h.text_append
          rw [List.cons_append, piecesOf_cons, textOf_append] at htext
          rw [htext, List.getElem?_append_right (Nat.le_add_right _ _), Nat.add_sub_cancel_left,
            List.getElem?_append_left hk]
        have hcall := h.callAt?_eq hk
        rw [hr, ite_self] at hcall
        rw [written, hcall, h.isCovered_eq hk, hr, hget]
        simp
      | some r =>
        obtain ⟨hmem, hlen, hnew⟩ := Token.of_renaming hr
        obtain ⟨m, hm⟩ : ∃ m, (textOf t.toPieces).length = m + 1 := by
          rw [← hlen, (renames_spelled r hmem).1.1]
          exact ⟨_, List.length_append⟩
        have hfirst := h.callAt?_eq (k := 0) (by omega)
        rw [if_pos rfl, hr] at hfirst
        rw [hm, List.range_succ_eq_map, List.flatMap_cons, written, hfirst, ← hnew, List.flatMap_map,
          List.flatMap_eq_nil_iff.mpr fun k hk => ?_, List.append_nil]
        have hk : k + 1 < (textOf t.toPieces).length := by
          rw [hm]
          exact Nat.succ_lt_succ (List.mem_range.mp hk)
        have hcall := h.callAt?_eq hk
        rw [if_neg (Nat.succ_ne_zero k)] at hcall
        rw [written, hcall, h.isCovered_eq hk, hr]
        simp
    rw [hlen, List.range_add, List.flatMap_append, ih h, List.flatMap_map, htoken]
    simp

theorem moved_eq (h : IsTokens text (xs ++ ys)) :
    moved text (textOf (piecesOf xs)).length = (textOf (piecesOf (xs.map (Token.rename newName)))).length := by
  rw [moved, h.flatMap_written]

/-- The regions of some tokens are those of the tokens with their new names, moved. -/
theorem regionsFrom_rename (h : IsTokens text (xs ++ ys)) :
    regionsFrom (moved text (textOf (piecesOf xs)).length) (piecesOf (ys.map (Token.rename newName))) =
      (regionsFrom (textOf (piecesOf xs)).length (piecesOf ys)).map (movedRegion text) := by
  induction ys generalizing xs with
  | nil => rfl
  | cons t ys ih =>
    have h' : IsTokens text ((xs ++ [t]) ++ ys) := by simpa using h
    have hrest := ih h'
    rw [h'.moved_eq, List.map_append, piecesOf_append, piecesOf_append, textOf_append, textOf_append,
      List.length_append, List.length_append, ← h.moved_eq] at hrest
    rw [List.map_cons, piecesOf_cons, piecesOf_cons, regionsFrom_append, regionsFrom_append, List.map_append]
    congr 1
    · have hcode : ∀ (n : Nat) (v : Text), regionsFrom n (v.map .code) = [] := fun n v => by
        induction v generalizing n with
        | nil => rfl
        | cons c v ihv => exact ihv (n + 1)
      cases t with
      | call v => simp [Token.rename, Token.toPieces, regionsFrom_append, hcode, regionsFrom]
      | word v => simp [Token.rename, Token.toPieces, hcode]
      | piece p => cases p <;> simp [Token.rename, Token.toPieces, regionsFrom, movedRegion]
    · simpa using hrest

end IsTokens

/-- Other names in the calls leave the literals and comments as they are. -/
theorem filter_rename (f : Text → Text) (ts : List Token) :
    (piecesOf (ts.map (Token.rename f))).filter (!·.isCode) = (piecesOf ts).filter (!·.isCode) := by
  induction ts with
  | nil => rfl
  | cons t ts ih =>
    rw [List.map_cons, piecesOf_cons, piecesOf_cons, List.filter_append, List.filter_append, ih]
    congr 1
    have hcode : ∀ v : Text, (v.map Piece.code).filter (!·.isCode) = [] := fun v => by simp [Piece.isCode]
    cases t with
    | call v =>
      rw [Token.rename, Token.toPieces, Token.toPieces, List.filter_append, List.filter_append, hcode, hcode]
    | word v => rfl
    | piece p => rfl

/-- **The renamings are one simultaneous replacement.** The literals and comments are the same, moved by what is
written in front of them, and a second time nothing is renamed. -/
theorem convert_eq_simultaneous (text : Text) :
    convert text = simultaneous text ∧ regions (convert text) = (regions text).map (movedRegion text) ∧
      (pieces (convert text)).filter (!·.isCode) = (pieces text).filter (!·.isCode) ∧
      convert (convert text) = convert text := by
  obtain ⟨ts, h⟩ := exists_isTokens text
  have hall := h.convert
  have h₁ : IsTokens text (ts ++ []) := by simpa using h
  refine ⟨?_, ?_, ?_, ?_⟩
  · have hwritten := h₁.flatMap_written
    rw [h.textOf_eq, hall.textOf_eq] at hwritten
    exact hwritten.symm
  · have h₀ : IsTokens text ([] ++ ts) := h
    have hmoved := h₀.regionsFrom_rename
    rwa [← hall.pieces_eq, ← h.pieces_eq] at hmoved
  · rw [hall.pieces_eq, h.pieces_eq, filter_rename]
  · have htwice := hall.convert
    have hcomp : Token.rename newName ∘ Token.rename newName = Token.rename newName := by
      funext t
      cases t <;> simp [Token.rename, newName_newName]
    rw [List.map_map, hcomp] at htwice
    rw [← htwice.textOf_eq, hall.textOf_eq]

/-- A literal and a longer name stay, and a call within a call is renamed at once with it. -/
example : simultaneous "if(std(a), 'if(', iif(b, 1, STDDEV(c)))".toList =
    "iif(stdev(a), 'if(', iif(b, 1, stdev(c)))".toList := by
  decide +kernel

end FunctionName

end SqlDialect
