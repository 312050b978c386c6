import SqlDialect.Proofs.FunctionName.Simultaneous

/-!
# Calls with blanks in front of their parenthesis

A function's name is renamed together with the parenthesis directly behind it. Where blanks stand between them, the
call keeps its name, though it is a call as well.

* `callAt_convert_iff`: the calls under an old name that are left are those with a blank behind the name.
-/

namespace SqlDialect.FunctionName

/-- The names that functions do not have in the embedded dialect. -/
def oldNames : List Text := renames.map (·.old.dropLast)

/-- Does a call of the function `name` stand at position `i`? The name is in any letter case, outside literals and
comments, no word character is next to it, and a parenthesis follows behind any blanks. -/
def CallAt (name text : Text) (i : Nat) : Prop :=
  regionAt? (regions text) i = none ∧ startsKeyword name (text.take i).getLast? (text.drop i) = true ∧
    ((text.drop (i + name.length)).dropWhile isBlank).head? = some '('

/-- Does a blank stand behind the name? -/
def IsSpaced (name text : Text) (i : Nat) : Prop := (text.drop (i + name.length)).head?.any isBlank = true

instance (name text : Text) (i : Nat) : Decidable (CallAt name text i) :=
  inferInstanceAs (Decidable (_ ∧ _ ∧ _))

instance (name text : Text) (i : Nat) : Decidable (IsSpaced name text i) :=
  inferInstanceAs (Decidable (_ = true))

theorem isName_of_oldNames {w : Text} (h : w ∈ oldNames) : IsName w := by
  obtain ⟨r, hr, rfl⟩ := List.mem_map.mp h
  exact (renames_spelled r hr).1.2

/-- The new name of a call is no old name. -/
theorem lower_newName_ne {w : Text} (h : w ∈ oldNames) (v : Text) : Text.lower (newName v) ≠ Text.lower w := by
  obtain ⟨r, hr, rfl⟩ := List.mem_map.mp h
  rw [newName]
  cases hv : renameOf? v with
  | none =>
    have := List.find?_eq_none.mp hv r hr
    simpa using this
  | some r' => exact new_ne_old r' (List.mem_of_find?_eq_some hv) r hr

/-- What follows the blanks is a parenthesis in both or in none. -/
theorem Alike.parenthesis {u u' : Text} (h : Alike u u') (hp : (u.dropWhile isBlank).head? = some '(') :
    (u'.dropWhile isBlank).head? = some '(' := by
  induction h with
  | nil => exact hp
  | char c _ ih =>
    by_cases hc : isBlank c = true
    · rw [List.dropWhile_cons_of_pos hc] at hp ⊢
      exact ih hp
    · rw [List.dropWhile_cons_of_neg hc] at hp ⊢
      exact hp
  | @word v v' u u' hv _ _ _ =>
    -- a word is neither a blank nor a parenthesis
    obtain ⟨c, v, rfl⟩ := List.exists_cons_of_ne_nil hv.1
    have hc := hv.2 c List.mem_cons_self
    have hblank : ¬ isBlank c = true := fun hb => by
      rw [isWord_of_isBlank hb] at hc
      cases hc
    rw [List.cons_append, List.dropWhile_cons_of_neg hblank] at hp
    cases hp
    cases hc

/-- In front of the parenthesis stands a blank, or none. -/
theorem blank_iff {u : Text} (hp : (u.dropWhile isBlank).head? = some '(') :
    u.head?.any isBlank = true ↔ u.head? ≠ some '(' := by
  cases u with
  | nil => cases hp
  | cons c u =>
    by_cases hc : isBlank c = true
    · have hne : c ≠ '(' := by
        rintro rfl
        cases hc
      simp [hc, hne]
    · rw [List.dropWhile_cons_of_neg hc, List.head?_cons, Option.some.injEq] at hp
      simp [hp]
      decide

/-- Every position of a text lies within a token. -/
theorem exists_token_at {ts : List Token} {i : Nat} (hi : i < (textOf (piecesOf ts)).length) :
    ∃ xs t ys k, ts = xs ++ t :: ys ∧ i = (textOf (piecesOf xs)).length + k ∧ k < (textOf t.toPieces).length := by
  induction ts generalizing i with
  | nil => cases hi
  | cons t ts ih =>
    by_cases hlt : i < (textOf t.toPieces).length
    · exact ⟨[], t, ts, i, rfl, by simp, hlt⟩
    · rw [piecesOf_cons, textOf_append, List.length_append] at hi
      obtain ⟨xs, t', ys, k, rfl, hk, hlt'⟩ := ih (i := i - (textOf t.toPieces).length) (by omega)
      refine ⟨t :: xs, t', ys, k, rfl, ?_, hlt'⟩
      rw [piecesOf_cons, textOf_append, List.length_append]
      omega

namespace IsTokens

variable {text : Text} {ts : List Token} {w : Text}

/-- A call stands at the start of a token that is a call, or a word that blanks and a parenthesis follow. -/
theorem callAt_iff (h : IsTokens text ts) (hw : IsName w) {i : Nat} :
    CallAt w text i ↔ ∃ xs t ys v, ts = xs ++ t :: ys ∧ (textOf (piecesOf xs)).length = i ∧ t.name? = some v ∧
      Text.lower v = Text.lower w ∧
      (t = .call v ∨ ((textOf (piecesOf ys)).dropWhile isBlank).head? = some '(') := by
  constructor
  · rintro ⟨hcode, hs, hparen⟩
    have hlt : i < (textOf (piecesOf ts)).length := by
      have hlen := starts_length (starts_of_startsKeyword hs)
      have hpos := List.length_pos_iff.mpr hw.1
      rw [h.textOf_eq]
      rw [List.length_drop] at hlen
      omega
    obtain ⟨xs, t, ys, k, rfl, rfl, hk⟩ := exists_token_at hlt
    obtain ⟨rfl, v, hv, hl⟩ := (h.startsKeyword_iff hw hk).mp ⟨hcode, hs⟩
    refine ⟨xs, t, ys, v, rfl, rfl, hv, hl, ?_⟩
    cases t with
    | call u =>
      cases hv
      exact .inl rfl
    | word u =>
      cases hv
      rw [Nat.add_zero, ← length_eq_of_lower_eq hl, h.behind_word] at hparen
      exact .inr hparen
    | piece => cases hv
  · rintro ⟨xs, t, ys, v, rfl, rfl, hv, hl, hbehind⟩
    have hne : v ≠ [] := fun he => by
      rw [he] at hl
      exact hw.1 (List.map_eq_nil_iff.mp hl.symm)
    have hpos : 0 < (textOf t.toPieces).length := by
      have := List.length_pos_iff.mpr hne
      cases t with
      | call u => cases hv; rw [textOf_call, List.length_append]; omega
      | word u => cases hv; rw [textOf_word]; exact this
      | piece => cases hv
    obtain ⟨hcode, hs⟩ := (h.startsKeyword_iff hw hpos).mpr ⟨rfl, v, hv, hl⟩
    refine ⟨hcode, hs, ?_⟩
    rw [← length_eq_of_lower_eq hl]
    cases t with
    | call u =>
      cases hv
      rw [h.behind_call]
      rfl
    | word u =>
      cases hv
      rw [h.behind_word]
      exact hbehind.resolve_left (by simp)
    | piece => cases hv

end IsTokens

/-- **The calls that are left** under an old name are exactly those with a blank behind the name. So none is left if
and only if each has its parenthesis directly behind the name. -/
theorem callAt_convert_iff (text : Text) :
    (∀ name ∈ oldNames, ∀ i, CallAt name (convert text) i ↔
      ∃ j, moved text j = i ∧ CallAt name text j ∧ IsSpaced name text j) ∧
    ((∀ name ∈ oldNames, ∀ i, ¬ CallAt name (convert text) i) ↔
      ∀ name ∈ oldNames, ∀ i, CallAt name text i → (text.drop (i + name.length)).head? = some '(') := by
  obtain ⟨ts, h⟩ := exists_isTokens text
  have hall := h.convert
  have hiff : ∀ name ∈ oldNames, ∀ i, CallAt name (convert text) i ↔
      ∃ j, moved text j = i ∧ CallAt name text j ∧ IsSpaced name text j := by
    intro name hmem i
    have hname := isName_of_oldNames hmem
    rw [hall.callAt_iff hname]
    constructor
    · rintro ⟨xs', t', ys', v, hts, rfl, hv, hl, hbehind⟩
      obtain ⟨xs, ys, rfl, rfl, hys⟩ := List.map_eq_append_iff.mp hts
      obtain ⟨t, ys, rfl, rfl, rfl⟩ := List.map_eq_cons_iff.mp hys
      cases t with
      | call u =>
        cases hv
        exact absurd hl (lower_newName_ne hmem u)
      | word u =>
        cases hv
        have hword := hbehind.resolve_left (by simp [Token.rename])
        have halike := (h.suffix.tail.whole.alike fun _ => isName_newName).symm
        have hparen := halike.parenthesis hword
        refine ⟨_, h.moved_eq, (h.callAt_iff hname).mpr ⟨xs, .word v, ys, v, rfl, rfl, rfl, hl, .inr hparen⟩, ?_⟩
        rw [IsSpaced, ← length_eq_of_lower_eq hl, h.behind_word]
        exact (blank_iff hparen).mpr h.head_behind_word
      | piece => cases hv
    · rintro ⟨j, rfl, hcall, hspaced⟩
      obtain ⟨xs, t, ys, v, rfl, rfl, hv, hl, hbehind⟩ := (h.callAt_iff hname).mp hcall
      rw [IsSpaced, ← length_eq_of_lower_eq hl] at hspaced
      cases t with
      | call u =>
        cases hv
        rw [h.behind_call] at hspaced
        exact absurd hspaced (by simp; decide)
      | word u =>
        cases hv
        have hparen := hbehind.resolve_left (by simp)
        have halike := h.suffix.tail.whole.alike fun _ => isName_newName
        exact ⟨xs.map (Token.rename newName), .word v, ys.map (Token.rename newName), v, by simp [Token.rename],
          h.moved_eq.symm, rfl, hl, .inr (halike.parenthesis hparen)⟩
      | piece => cases hv
  refine ⟨hiff, fun hnone name hmem i hcall => ?_, fun hall name hmem i hcall => ?_⟩
  · by_contra hne
    exact hnone name hmem _ ((hiff name hmem _).mpr ⟨i, rfl, hcall, (blank_iff hcall.2.2).mpr hne⟩)
  · obtain ⟨j, -, hj, hspaced⟩ := (hiff name hmem i).mp hcall
    exact (blank_iff hj.2.2).mp hspaced (hall name hmem j hj)

/-- The blank keeps the name; the call in the third column is renamed. -/
example : convert "select if (a, 1, 0), if, if(b, 1, 0)".toList = "select if (a, 1, 0), if, iif(b, 1, 0)".toList ∧
    CallAt "if".toList "select if (a, 1, 0), if, if(b, 1, 0)".toList 7 := by
  decide +kernel

end SqlDialect.FunctionName
