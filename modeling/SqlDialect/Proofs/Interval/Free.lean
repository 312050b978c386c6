import SqlDialect.Proofs.Interval.Located

/-!
# Pieces without a keyword

`Free` says that no INTERVAL keyword stands among some pieces. A keyword starts with one of its letters and reaches
over no place where a word ends, so pieces may be put together.

* `free_append`, `Free.append`: pieces without a keyword next to each other.
* `free_front`: no keyword arises or is lost where a call is written behind what is kept of a text.
-/

namespace SqlDialect.Interval

/-! ## The letters of the keyword -/

theorem isName_keyword : ∀ c ∈ keyword, isName c = true := by rw [keyword]; decide

theorem lower_keyword : Text.lower keyword = keyword := by rw [keyword]; decide

/-- The text starts with no letter of the keyword. -/
def Foreign (t : Text) : Prop := ∀ c, t.head? = some c → c.toLower ∉ keyword

theorem foreign_of_isName {t : Text} (h : t.head?.any isName = false) : Foreign t := by
  intro c hc hm
  rw [hc, Option.any_some, ← isName_toLower, isName_keyword _ hm] at h
  cases h

theorem foreign_of_isWord {t : Text} (h : t.head?.any isWord = false) : Foreign t := by
  apply foreign_of_isName
  cases ht : t.head? with
  | none => rfl
  | some c =>
    rw [ht] at h
    exact isName_of_isWord h

section Keyword

variable {b : Option Char}

theorem mem_keyword_of_lower_eq {v : Text} (hv : Text.lower v = Text.lower keyword) {c : Char} (hc : c ∈ v) :
    c.toLower ∈ keyword := by
  rw [← lower_keyword, ← hv]
  exact List.mem_map_of_mem hc

/-- A keyword starts with one of its letters. -/
theorem not_foreign_of_startsKeyword {t : Text} (h : startsKeyword keyword b t = true) : ¬ Foreign t := by
  intro hf
  obtain ⟨v, x, rfl, hv, -, -⟩ := startsKeyword_keyword h
  cases v with
  | nil => exact absurd (List.map_eq_nil_iff.mp hv.symm) keyword_ne_nil
  | cons c v => exact hf c rfl (mem_keyword_of_lower_eq hv List.mem_cons_self)

/-- A keyword does not reach into a text that starts with none of its letters. -/
theorem startsKeyword_of_append {u r : Text} (hr : Foreign r) (h : startsKeyword keyword b (u ++ r) = true) :
    startsKeyword keyword b u = true := by
  have hb := before_of_startsKeyword keyword_ne_nil isWord_keyword h
  obtain ⟨v, x, hvx, hv, -, hx⟩ := startsKeyword_keyword h
  rcases List.append_eq_append_iff.mp hvx with ⟨y, rfl, hy⟩ | ⟨y, rfl, hy⟩
  · cases y with
    | nil =>
      rw [List.append_nil] at hv
      have := startsKeyword_of_lower_eq (u := []) hv hb rfl
      rwa [List.append_nil] at this
    | cons d y => exact absurd (mem_keyword_of_lower_eq hv (by simp)) (hr d (by rw [hy]; rfl))
  · apply startsKeyword_of_lower_eq hv hb
    cases y with
    | nil => rfl
    | cons d y =>
      rw [hy] at hx
      exact hx

end Keyword

/-! ## Pieces without a keyword -/

/-- No keyword stands among the pieces. -/
def Free (ps : List Piece) : Prop := firstIn (startsKeyword keyword) none ps = none

section Free

variable {ps qs : List Piece} {b : Option Char}

theorem free_nil : Free [] := rfl

theorem free_iff : Free ps ↔ ∀ ms c ns, ps = ms ++ .code c :: ns →
    startsKeyword keyword (textOf ms).getLast? (c :: textOf ns) = false := by
  rw [Free, firstIn_eq_none_iff]
  simp only [Option.or_none]

/-- What stands in front makes no difference, unless a word goes on there. -/
theorem free_before (h : b.any isWord = false ∨ Foreign (textOf ps)) :
    firstIn (startsKeyword keyword) b ps = none ↔ Free ps := by
  rw [free_iff, firstIn_eq_none_iff]
  have heq : ∀ ms c ns, ps = ms ++ .code c :: ns →
      startsKeyword keyword ((textOf ms).getLast?.or b) (c :: textOf ns) =
        startsKeyword keyword (textOf ms).getLast? (c :: textOf ns) := by
    rintro ms c ns rfl
    cases hm : (textOf ms).getLast? with
    | some d => rfl
    | none =>
      rcases h with h | h
      · exact startsKeyword_before h _
      · rw [textOf_append, List.getLast?_eq_none_iff.mp hm, List.nil_append] at h
        have hfalse : ∀ b', startsKeyword keyword b' (c :: textOf ns) = false := by
          intro b'
          rw [Bool.eq_false_iff]
          exact fun hs => not_foreign_of_startsKeyword hs h
        rw [hfalse, hfalse]
  constructor
  · intro hf ms c ns he
    rw [← heq ms c ns he]
    exact hf ms c ns he
  · intro hf ms c ns he
    rw [heq ms c ns he]
    exact hf ms c ns he

/-- The whole holds no keyword exactly if the parts hold none, where no word goes across. -/
theorem free_append (hb : WordBreak (textOf ps) (textOf qs)) : Free (ps ++ qs) ↔ Free ps ∧ Free qs := by
  rw [Free, firstIn_keyword_append isWord_keyword hb, Option.or_eq_none_iff, Option.map_eq_none_iff]
  refine and_congr_right fun _ => free_before ?_
  rcases hb with hb | hb
  · left
    cases hl : (textOf ps).getLast? with
    | none => rfl
    | some c => exact hb c hl
  · right
    apply foreign_of_isWord
    cases hl : (textOf qs).head? with
    | none => rfl
    | some c => exact hb c hl

/-- No keyword arises in front of pieces that start with none of its letters. -/
theorem Free.append (hp : Free ps) (hq : Free qs) (hf : Foreign (textOf qs)) : Free (ps ++ qs) := by
  rw [free_iff] at hp ⊢
  intro ms c ns he
  rw [Bool.eq_false_iff]
  intro hs
  rcases append_eq_append_cons he with ⟨z, rfl, hz⟩ | ⟨z, rfl, rfl⟩
  · have hq' := (free_before (b := (textOf ps).getLast?) (Or.inr hf)).mpr hq
    have := firstIn_eq_none_iff.mp hq' z c ns hz
    rw [textOf_append, List.getLast?_append, this] at hs
    cases hs
  · rw [textOf_append, ← List.cons_append] at hs
    have := startsKeyword_of_append hf hs
    rw [hp ms c z rfl] at this
    cases this

/-- Code without names holds no keyword. -/
theorem free_of_codes (h : ∀ c, .code c ∈ ps → isName c = false) : Free ps := by
  rw [free_iff]
  rintro ms c ns rfl
  rw [Bool.eq_false_iff]
  intro hs
  refine not_foreign_of_startsKeyword hs (foreign_of_isName ?_)
  exact h c (by simp)

/-- Dropped pieces hold no name. -/
theorem isName_of_isDropped {c : Char} (h : isDropped (.code c) = true) : isName c = false := by
  simp only [isDropped, Bool.or_eq_true, decide_eq_true_eq] at h
  rcases h with ((hc | hc) | rfl) | rfl
  · simp [isName, hc]
  · obtain ⟨sign, hs⟩ := Option.isSome_iff_exists.mp hc
    rcases eq_of_ofChar? hs with rfl | rfl <;> rfl
  · rfl
  · rfl

end Free

/-! ## In front of the base -/

/-- What is written in front of the base. -/
@[irreducible] def opening : Text := functionName ++ ['(']

theorem stopWords_not_keyword : ∀ w ∈ stopWords, ¬ keyword <:+ Text.lower w := by rw [stopWords, keyword]; decide

/-- What is kept in front of a base does not end with a keyword. -/
theorem not_keyword_of_endsWords {a v : Text} (h : EndsWords (a ++ v)) : Text.lower v ≠ Text.lower keyword := by
  intro hv
  have hne : v ≠ [] := fun e => by
    rw [e] at hv
    exact keyword_ne_nil (List.map_eq_nil_iff.mp hv.symm)
  rcases h with h | ⟨x, s, w, hx, hw, hs, hlast⟩
  · rw [List.getLast?_append, List.getLast?_eq_some_getLast hne, Option.some_or, Option.any_some,
      isName_of_lower_eq hv isName_keyword _ (List.getLast_mem hne)] at h
    cases h
  · -- the keyword would be longer than the stop word and so take in a character that is no letter, or end it
    have hsuffix : ¬ v <:+ s := fun ⟨z, hz⟩ => by
      refine stopWords_not_keyword w hw ⟨Text.lower z, ?_⟩
      rw [← hs, ← hz, ← lower_keyword, ← hv]
      exact List.map_append.symm
    rcases List.append_eq_append_iff.mp hx with ⟨z, rfl, hz⟩ | ⟨z, rfl, rfl⟩
    · cases hl : z.getLast? with
      | none =>
        rw [List.getLast?_eq_none_iff.mp hl, List.nil_append] at hz
        exact hsuffix (hz ▸ List.suffix_refl v)
      | some c =>
        rw [List.getLast?_append, hl, Option.some_or, Option.any_some] at hlast
        have hc : c ∈ v := by
          rw [hz]
          exact List.mem_append_left _ (List.mem_of_getLast? hl)
        rw [isWord_of_lower_eq hv isWord_keyword c hc] at hlast
        cases hlast
    · exact hsuffix (List.suffix_append z v)

/-- A text that does not end with a keyword has the same keywords in front of any other that starts with none of its
letters. -/
theorem startsKeyword_append_of_not_suffix {b : Option Char} {u r : Text} (hr : Foreign r)
    (hu : ∀ a v, u = a ++ v → Text.lower v ≠ Text.lower keyword) :
    startsKeyword keyword b (u ++ r) = startsKeyword keyword b u := by
  rw [Bool.eq_iff_iff]
  refine ⟨startsKeyword_of_append hr, fun h => ?_⟩
  have hb := before_of_startsKeyword keyword_ne_nil isWord_keyword h
  obtain ⟨v, x, rfl, hv, -, hx⟩ := startsKeyword_keyword h
  rw [List.append_assoc]
  apply startsKeyword_of_lower_eq hv hb
  cases x with
  | nil => exact absurd hv (hu [] v (List.append_nil v))
  | cons c x => exact hx

theorem opening_text : opening = "datetime".toList ++ ['('] := by rw [opening, functionName]

theorem opening_eq : ∃ t, opening = 'd' :: t ∧ opening.getLast? = some '(' :=
  ⟨"atetime(".toList, by rw [opening_text]; decide⟩

theorem isQuote_opening : ∀ c ∈ opening, isQuote c = false := by rw [opening_text]; decide

theorem isPlain_opening : isPlain opening = true := by rw [opening_text]; decide

theorem free_opening : Free (opening.map .code) := by
  show firstIn (startsKeyword keyword) none (opening.map .code) = none
  rw [opening_text, keyword]
  decide

theorem foreign_opening (t : Text) : Foreign (opening ++ t) := by
  obtain ⟨x, hx, -⟩ := opening_eq
  intro c hc
  rw [hx, List.cons_append, List.head?_cons, Option.some.injEq] at hc
  rw [← hc, keyword]
  decide

/-- **In front of the base.** No keyword arises or is lost where the call is written behind what is kept. -/
theorem free_front {as qs : List Piece} (h : EndsWords (textOf as)) :
    Free (as ++ (opening.map .code ++ qs)) ↔ Free as ∧ Free qs := by
  have hforeign : Foreign (textOf (opening.map .code ++ qs)) := by
    rw [textOf_append, textOf_map_code]
    exact foreign_opening _
  have hopening : Free (opening.map .code ++ qs) ↔ Free qs := by
    rw [free_append]
    · exact ⟨fun h => h.2, fun h => ⟨free_opening, h⟩⟩
    · left
      rw [textOf_map_code]
      intro c hc
      obtain ⟨t, -, hlast⟩ := opening_eq
      rw [hlast] at hc
      rw [← Option.some.inj hc]
      rfl
  rw [← hopening]
  rw [Free, firstIn_append, Option.or_eq_none_iff, Option.map_eq_none_iff]
  · exact and_congr_right fun _ => free_before (Or.inr hforeign)
  · intro b a u hu ha
    apply startsKeyword_append_of_not_suffix hforeign
    rintro x v rfl
    rw [ha, ← List.append_assoc] at h
    exact not_keyword_of_endsWords h

end SqlDialect.Interval
