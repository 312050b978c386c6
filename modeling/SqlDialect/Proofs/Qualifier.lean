import SqlDialect.Qualifier
import SqlDialect.Region
import SqlDialect.Proofs.Keyword

/-!
# Which qualifiers are dropped

`strip` reads string literals in its own way: comments and quoted names are no regions for it, so a quote within one
of them may open a string literal. Here every character of a text gets a mark that says whether it stays (`trace`),
and the qualifiers that are dropped are compared with the regions of the text.

* `Qualifier.drops_iff`: what is dropped are the qualifiers outside of the string literals as `strip` reads them.
* `Qualifier.strip_dropsExactly_iff`: string literals stay whole and the qualifiers outside of literals and comments
  are dropped, exactly for the texts in which both readings agree at every qualifier.
* `Qualifier.dropsExactly_of_quotes`: they agree if no quote stands in a comment or in a quoted name.
-/

namespace SqlDialect

/-! ## The regions of a text among its pieces -/

/-- The regions of some pieces, each with the pieces before and behind it. -/
theorem mem_regionsFrom {start : Nat} {ps : List Piece} {r : Region} :
    r ∈ regionsFrom start ps ↔ ∃ ms t ns, ps = ms ++ .region r.kind t :: ns ∧
      r.start = start + (textOf ms).length ∧ r.stop = r.start + t.length := by
  induction ps generalizing start with
  | nil => simp [regionsFrom]
  | cons p ps ih =>
    have hskip : ∀ {n}, p.text.length = n → ((∃ ms t ns, ps = ms ++ .region r.kind t :: ns ∧
        r.start = start + n + (textOf ms).length ∧ r.stop = r.start + t.length) ↔
        ∃ ms t ns, ms ≠ [] ∧ p :: ps = ms ++ .region r.kind t :: ns ∧ r.start = start + (textOf ms).length ∧
          r.stop = r.start + t.length) := fun {n} hn => by
      constructor
      · rintro ⟨ms, t, ns, rfl, h1, h2⟩
        refine ⟨p :: ms, t, ns, by simp, rfl, ?_, h2⟩
        rw [textOf_cons, List.length_append]
        omega
      · rintro ⟨ms, t, ns, hne, h0, h1, h2⟩
        obtain ⟨m, ms, rfl⟩ := List.exists_cons_of_ne_nil hne
        rw [List.cons_append, List.cons.injEq] at h0
        obtain ⟨rfl, rfl⟩ := h0
        refine ⟨ms, t, ns, rfl, ?_, h2⟩
        rw [textOf_cons, List.length_append] at h1
        omega
    cases p with
    | code c =>
      rw [regionsFrom, ih, @hskip 1 rfl]
      constructor
      · rintro ⟨ms, t, ns, -, h⟩
        exact ⟨ms, t, ns, h⟩
      · rintro ⟨ms, t, ns, h⟩
        refine ⟨ms, t, ns, ?_, h⟩
        rintro rfl
        cases h.1
    | region kind u =>
      rw [regionsFrom, List.mem_cons, ih, @hskip u.length rfl]
      constructor
      · rintro (rfl | ⟨ms, t, ns, -, h⟩)
        · exact ⟨[], u, ps, rfl, by simp, rfl⟩
        · exact ⟨ms, t, ns, h⟩
      · rintro ⟨ms, t, ns, h⟩
        by_cases hms : ms = []
        · subst hms
          obtain ⟨h0, h1, h2⟩ := h
          rw [List.nil_append, List.cons.injEq, Piece.region.injEq] at h0
          obtain ⟨⟨hk, rfl⟩, rfl⟩ := h0
          simp only [textOf_nil, List.length_nil, Nat.add_zero] at h1
          exact Or.inl (by cases r; simp_all)
        · exact Or.inr ⟨ms, t, ns, hms, h⟩

/-- A literal starts with a quote. -/
theorem quote_of_literal {text t : Text} {ms ns : List Piece} (h : pieces text = ms ++ .region .literal t :: ns) :
    ∃ q u, t = q :: u ∧ isQuote q = true := by
  have ht := pieces_textOf h
  have hm : Piece.region .literal t ∈ pieces text := by rw [h]; simp
  obtain ⟨q, u, rfl⟩ := List.exists_cons_of_ne_nil (region_ne_nil hm)
  rw [textOf_cons, Piece.text, List.cons_append] at ht
  obtain ⟨n, hreg, -, -⟩ := pieces_eq_region ht
  refine ⟨q, u, rfl, ?_⟩
  rcases regionTail?_cases hreg with ⟨-, hl⟩ | ⟨hc, -⟩
  · by_cases hq : isQuote q = true
    · exact hq
    · simp [literalTail?, hq] at hl
  · cases hc

namespace Qualifier

/-! ## The characters that stay -/

/-- A character of a text, with whether it stays when the qualifiers are dropped. -/
structure Trace where
  char : Char
  stays : Bool
  deriving DecidableEq, Repr

/-- The text with the same mark at every character. -/
def mark (stays : Bool) (text : Text) : List Trace := text.map (⟨·, stays⟩)

@[simp] theorem map_char_mark (b : Bool) (text : Text) : (mark b text).map (·.char) = text := by
  simp [mark, Function.comp_def]

@[simp] theorem length_mark (b : Bool) (text : Text) : (mark b text).length = text.length := by simp [mark]

@[simp] theorem filter_mark (b : Bool) (text : Text) :
    (mark b text).filter (·.stays) = if b = true then mark b text else [] := by
  cases b <;> simp [mark]

/-- The spelling among `qs` that a text starts with, if a name may start behind the character `before`. -/
def spelling? (qs : List Text) (before : Option Char) (text : Text) : Option Text :=
  if startsName before then qs.find? (startsKeyword · before text) else none

/-- The characters of a text and which of them `stripFrom` lets stay. -/
def traceFrom (qs : List Text) (before : Option Char) (text : Text) : List Trace :=
  match text with
  | [] => []
  | c :: rest =>
    match spelling? qs before (c :: rest) with
    | some q =>
      let n := q.length - 1
      mark false (c :: rest.take n) ++ traceFrom qs (c :: rest.take n).getLast? (rest.drop n)
    | none =>
      match stringTail? c rest with
      | some n => mark true (c :: rest.take n) ++ traceFrom qs (c :: rest.take n).getLast? (rest.drop n)
      | none => mark true [c] ++ traceFrom qs (some c) rest
termination_by text.length
decreasing_by all_goals simp only [List.length_drop, List.length_cons]; omega

/-- The characters of a text and which of them stay without the qualifiers of the schema. -/
def trace (schema text : Text) : List Trace := traceFrom (spellings schema) none text

theorem text_stripFrom (qs : List Text) (before : Option Char) (text : Text) :
    (stripFrom qs before text).text = ((traceFrom qs before text).filter (·.stays)).map (·.char) := by
  fun_induction traceFrom qs before text with
  | case1 => simp [stripFrom]
  | case2 before c rest q hq n ih =>
    rw [stripFrom, ← spelling?, hq]
    simp [ih, n]
  | case3 before c rest hq n hs ih =>
    rw [stripFrom, ← spelling?, hq]
    simp [hs, ih]
  | case4 before c rest hq hs ih =>
    rw [stripFrom, ← spelling?, hq]
    simp [hs, ih]

/-- The characters that stay are the text without its qualifiers. -/
theorem text_strip {schema : Text} (hs : schema ≠ []) (text : Text) :
    (strip schema text).text = ((trace schema text).filter (·.stays)).map (·.char) := by
  simp [strip, hs, text_stripFrom, trace]

/-- Every character of the text has its mark. -/
theorem map_char_traceFrom (qs : List Text) (before : Option Char) (text : Text) :
    (traceFrom qs before text).map (·.char) = text := by
  fun_induction traceFrom qs before text with
  | case1 => rfl
  | case2 before c rest q hq n ih => simp [ih]
  | case3 before c rest hq n hs ih => simp [ih]
  | case4 before c rest hq hs ih => simp [ih]

/-! ## The string literals as they are read here -/

/-- For every character whether it belongs to a string literal, where comments and quoted names are read like code. -/
def ownStrings : Text → List Bool
  | [] => []
  | c :: rest =>
    match stringTail? c rest with
    | some n => (c :: rest.take n).map (fun _ => true) ++ ownStrings (rest.drop n)
    | none => false :: ownStrings rest
termination_by text => text.length
decreasing_by all_goals simp only [List.length_drop, List.length_cons]; omega

/-- Characters other than quotes of string literals belong to none when no literal is open before them. -/
theorem ownStrings_append {v : Text} (hv : ∀ c ∈ v, c ≠ '\'' ∧ c ≠ '"') (u : Text) :
    ownStrings (v ++ u) = v.map (fun _ => false) ++ ownStrings u := by
  induction v with
  | nil => rfl
  | cons c v ih =>
    obtain ⟨h1, h2⟩ := hv c List.mem_cons_self
    have hnone : stringTail? c (v ++ u) = none := by
      unfold stringTail?
      split
      · rfl
      · next h3 => simp [literalTail?, isQuote, h1, h2, h3]
    rw [List.cons_append, ownStrings, hnone]
    simp only [List.map_cons, List.cons_append]
    rw [ih fun d hd => hv d (List.mem_cons_of_mem _ hd)]

/-! ## The places of the qualifiers -/

/-- The characters that a schema name is made of. -/
def isNamePart (c : Char) : Bool := c.isAlphanum || c = '_'

theorem isWord_of_isNamePart {c : Char} (h : isNamePart c = true) : isWord c = true := by
  simp only [isNamePart, Bool.or_eq_true] at h
  simp only [isWord, Bool.or_eq_true]
  exact Or.inl (Or.inl h)

section Spelling

variable {schema : Text} {before : Option Char} {text q : Text}

theorem startsKeyword_spelling (hb : startsName before = true) (hq : q ∈ spellings schema) :
    startsKeyword q before text = Text.starts q text := by
  have hlast : q.getLast? = some '.' := by
    simp only [spellings, List.mem_cons, List.not_mem_nil, or_false] at hq
    rcases hq with rfl | rfl <;> simp [List.getLast?_cons]
  have hword : before.any isWord = false := by
    cases before with
    | none => rfl
    | some c =>
      simp only [startsName, Option.any_some, Bool.not_eq_true', Bool.or_eq_false_iff] at hb
      exact hb.1
  have hdot : isWord '.' = false := by decide
  simp [startsKeyword, hlast, hword, hdot]

/-- What a spelling of a qualifier looks like in a text. -/
theorem spelled (hw : ∀ c ∈ schema, isNamePart c = true) (hq : q ∈ spellings schema)
    (h : Text.starts q text = true) :
    ∃ v u s, text = v ++ u ∧ v.length = q.length ∧ s.length = schema.length ∧ (∀ c ∈ s, isWord c = true) ∧
      (q = schema ++ ['.'] ∧ v = s ++ ['.'] ∨
        q = '\x60' :: schema ++ ['\x60', '.'] ∧ v = '\x60' :: s ++ ['\x60', '.']) := by
  have hword : ∀ c ∈ schema, isWord c = true := fun c hc => isWord_of_isNamePart (hw c hc)
  obtain ⟨v, u, rfl, hl⟩ := starts_iff.mp h
  have hlen := length_eq_of_lower_eq hl
  simp only [spellings, List.mem_cons, List.not_mem_nil, or_false] at hq
  rcases hq with rfl | rfl
  · obtain ⟨x, z, rfl, hx, hz⟩ := lower_eq_append hl
    obtain ⟨o, s, rfl, ho, hs⟩ := lower_eq_append hx
    have ho' := eq_of_lower_eq ho (by decide)
    have hz' := eq_of_lower_eq hz (by decide)
    subst ho' hz'
    exact ⟨_, u, s, rfl, hlen, length_eq_of_lower_eq hs, isWord_of_lower_eq hs hword, Or.inr ⟨rfl, rfl⟩⟩
  · obtain ⟨s, z, rfl, hs, hz⟩ := lower_eq_append hl
    have hz' := eq_of_lower_eq hz (by decide)
    subst hz'
    exact ⟨_, u, s, rfl, hlen, length_eq_of_lower_eq hs, isWord_of_lower_eq hs hword, Or.inl ⟨rfl, rfl⟩⟩

theorem length_pos_of_mem_spellings (hq : q ∈ spellings schema) : 0 < q.length := by
  simp only [spellings, List.mem_cons, List.not_mem_nil, or_false] at hq
  rcases hq with rfl | rfl <;> simp

/-- A spelling that stands in a text holds no quote of a string literal. -/
theorem ne_quote_of_spelled (hw : ∀ c ∈ schema, isNamePart c = true) (hq : q ∈ spellings schema)
    (h : Text.starts q text = true) : ∀ c ∈ text.take q.length, c ≠ '\'' ∧ c ≠ '"' := by
  obtain ⟨v, u, s, rfl, hv, -, hs, hshape⟩ := spelled hw hq h
  have hs' : ∀ c ∈ s, c ≠ '\'' ∧ c ≠ '"' := fun c hc =>
    ⟨fun e => by simpa [e, show isWord '\'' = false by decide] using hs c hc,
      fun e => by simpa [e, show isWord '"' = false by decide] using hs c hc⟩
  rw [← hv, List.take_left]
  rcases hshape with ⟨-, rfl⟩ | ⟨-, rfl⟩
  · intro c hc
    rcases List.mem_append.mp hc with hc | hc
    · exact hs' c hc
    · rw [List.mem_singleton.mp hc]; decide
  · intro c hc
    simp only [List.cons_append, List.mem_cons, List.mem_append, List.not_mem_nil, or_false] at hc
    rcases hc with rfl | hc | rfl | rfl
    · decide
    · exact hs' c hc
    · decide
    · decide

theorem spelling?_eq_some_iff (hne : schema ≠ []) (hw : ∀ c ∈ schema, isNamePart c = true) :
    spelling? (spellings schema) before text = some q ↔
      startsName before = true ∧ q ∈ spellings schema ∧ Text.starts q text = true := by
  unfold spelling?
  constructor
  · intro h
    split at h
    · next hb =>
      have hq := List.mem_of_find?_eq_some h
      refine ⟨hb, hq, ?_⟩
      rw [← startsKeyword_spelling hb hq]
      exact List.find?_some (p := fun x => startsKeyword x before text) h
    · cases h
  · rintro ⟨hb, hq, hs⟩
    rw [if_pos hb]
    have hq' := hq
    simp only [spellings, List.mem_cons, List.not_mem_nil, or_false] at hq'
    rcases hq' with rfl | rfl
    · rw [spellings, List.find?_cons_of_pos]
      rwa [startsKeyword_spelling hb hq]
    · obtain ⟨c, rest, rfl⟩ := List.exists_cons_of_ne_nil hne
      have hc := isWord_of_isNamePart (hw c List.mem_cons_self)
      -- the quoted spelling does not stand there, since it starts with a quote
      have hno : Text.starts (['\x60'] ++ (c :: rest) ++ ['\x60', '.']) text = false := by
        cases text with
        | nil => rfl
        | cons d text =>
          simp only [List.cons_append, Text.starts, Bool.and_eq_true, beq_iff_eq] at hs
          simp only [List.cons_append, Text.starts, Bool.and_eq_false_iff, beq_eq_false_iff_ne]
          refine Or.inl fun e => ?_
          have := eq_of_toLower_eq (hs.1.trans e.symm) (by decide)
          rw [this] at hc
          exact absurd hc (by decide)
      have hmem : ['\x60'] ++ (c :: rest) ++ ['\x60', '.'] ∈ spellings (c :: rest) := List.mem_cons_self
      rw [spellings, List.find?_cons_of_neg, List.find?_cons_of_pos]
      · rwa [startsKeyword_spelling hb hq]
      · rw [startsKeyword_spelling hb hmem, hno]
        exact Bool.false_ne_true

theorem startsName_of_isWord {c : Char} (h : isWord c = true) : startsName (some c) = false := by
  simp [startsName, h]

/-- No qualifier starts behind a part of a name. -/
theorem startsName_within {s : Text} (hs : ∀ c ∈ s, isWord c = true) {k : Nat} (h0 : 0 < k) (hk : k ≤ s.length)
    (x : Text) : startsName (x ++ s.take k).getLast? = false := by
  have hne : s.take k ≠ [] := fun e => by
    have := congrArg List.length e
    rw [List.length_take_of_le hk, List.length_nil] at this
    omega
  rw [List.getLast?_append, List.getLast?_eq_some_getLast hne, Option.some_or]
  exact startsName_of_isWord (hs _ (List.mem_of_mem_take (List.getLast_mem hne)))

/-- A qualifier does not start with a point. -/
theorem not_starts_point (hne : schema ≠ []) (hw : ∀ c ∈ schema, isNamePart c = true) (hq : q ∈ spellings schema)
    (u : Text) : ¬ Text.starts q ('.' :: u) = true := by
  intro h
  obtain ⟨v, u', s, htext, -, hlen, hword, hshape⟩ := spelled hw hq h
  have hpos : 0 < s.length := by rw [hlen]; exact List.length_pos_iff.mpr hne
  obtain ⟨c, s, rfl⟩ := List.exists_cons_of_ne_nil (List.length_pos_iff.mp hpos)
  rcases hshape with ⟨-, rfl⟩ | ⟨-, rfl⟩
  · have hc := hword c List.mem_cons_self
    rw [← (List.cons.inj htext).1] at hc
    exact absurd hc (by decide)
  · exact absurd (List.cons.inj htext).1 (by decide)

/-- Behind the opening quote of a qualifier the name runs up to the closing quote, not up to a point. -/
theorem not_starts_quoted (hne : schema ≠ []) (hw : ∀ c ∈ schema, isNamePart c = true) (hq : q ∈ spellings schema)
    {s u : Text} (hlen : s.length = schema.length) (hs : ∀ c ∈ s, isWord c = true) :
    ¬ Text.starts q (s ++ '\x60' :: u) = true := by
  intro h
  obtain ⟨v, u', s', htext, -, hlen', -, hshape⟩ := spelled hw hq h
  rcases hshape with ⟨-, rfl⟩ | ⟨-, rfl⟩
  · rw [List.append_assoc] at htext
    obtain ⟨-, hcut⟩ := List.append_inj htext (hlen.trans hlen'.symm)
    exact absurd (List.cons.inj hcut).1 (by decide)
  · have hpos : 0 < s.length := by rw [hlen]; exact List.length_pos_iff.mpr hne
    obtain ⟨c, s, rfl⟩ := List.exists_cons_of_ne_nil (List.length_pos_iff.mp hpos)
    have hc := hs c List.mem_cons_self
    rw [(List.cons.inj htext).1] at hc
    exact absurd hc (by decide)

/-- No qualifier starts within another one. -/
theorem spelling?_within (hne : schema ≠ []) (hw : ∀ c ∈ schema, isNamePart c = true)
    (h : spelling? (spellings schema) before text = some q) {j : Nat} (hj : 0 < j) (hjq : j < q.length) :
    spelling? (spellings schema) (text.take j).getLast? (text.drop j) = none := by
  obtain ⟨-, hq, hs⟩ := (spelling?_eq_some_iff hne hw).mp h
  obtain ⟨v, u, s, rfl, hv, hlen, hword, hshape⟩ := spelled hw hq hs
  rw [Option.eq_none_iff_forall_ne_some]
  intro q' h'
  obtain ⟨hb, hq', hs'⟩ := (spelling?_eq_some_iff hne hw).mp h'
  rcases hshape with ⟨rfl, rfl⟩ | ⟨rfl, rfl⟩
  · rw [List.length_append, List.length_singleton] at hjq
    have hle : j ≤ s.length := by omega
    rw [List.append_assoc, List.take_append_of_le_length hle, ← List.nil_append (s.take j),
      startsName_within hword hj hle] at hb
    cases hb
  · simp only [List.length_append, List.length_cons, List.length_nil] at hjq
    obtain ⟨k, rfl⟩ : ∃ k, j = k + 1 := ⟨j - 1, by omega⟩
    simp only [List.cons_append, List.append_assoc, List.drop_succ_cons, List.take_succ_cons, List.nil_append] at hb hs'
    rcases Nat.eq_zero_or_pos k with rfl | hk
    · exact not_starts_quoted hne hw hq' hlen hword hs'
    · rcases Nat.lt_or_ge s.length k with hks | hks
      · obtain rfl : k = s.length + 1 := by omega
        rw [← List.drop_drop, List.drop_left] at hs'
        exact not_starts_point hne hw hq' u hs'
      · rw [List.take_append_of_le_length hks, ← List.singleton_append, startsName_within hword hk hks] at hb
        cases hb

end Spelling

/-! ## What is dropped -/

/-- Does position `i` belong to a spelling among `qs` that stands outside of the string literals as they are read
here? -/
def Reached (qs : List Text) (before : Option Char) (text : Text) (i : Nat) : Prop :=
  ∃ j q, j ≤ i ∧ i < j + q.length ∧ spelling? qs ((text.take j).getLast?.or before) (text.drop j) = some q ∧
    (ownStrings text)[j]? = some false

section Reached

variable {qs : List Text} {before : Option Char} {v u : Text} {b own : Bool}

/-- Behind the first characters of a text, the spellings are the ones of what follows, if none reaches over. -/
theorem reached_append (hv : v ≠ []) (hown : ownStrings (v ++ u) = v.map (fun _ => own) ++ ownStrings u)
    (hin : ∀ j q, j < v.length → own = false →
      spelling? qs (((v ++ u).take j).getLast?.or before) ((v ++ u).drop j) = some q → j + q.length ≤ v.length)
    (i : Nat) : Reached qs before (v ++ u) (v.length + i) ↔ Reached qs v.getLast? u i := by
  have hbefore : ∀ j, ((v ++ u).take (v.length + j)).getLast?.or before = (u.take j).getLast?.or v.getLast? :=
    fun j => by
      rw [List.take_length_add_append, List.getLast?_append, List.getLast?_eq_some_getLast hv]
      cases (u.take j).getLast? <;> rfl
  have hflag : ∀ j, (ownStrings (v ++ u))[v.length + j]? = (ownStrings u)[j]? := fun j => by
    rw [hown, List.getElem?_append_right (by simp)]
    simp
  have hdrop : ∀ j, (v ++ u).drop (v.length + j) = u.drop j := fun j => by rw [← List.drop_drop, List.drop_left]
  constructor
  · rintro ⟨j, q, hji, hiq, hq, hj⟩
    by_cases hlt : j < v.length
    · exfalso
      rw [hown, List.getElem?_append_left (by simpa using hlt)] at hj
      have hfalse : own = false := by simpa [hlt] using hj
      have := hin j q hlt hfalse hq
      omega
    · obtain ⟨k, rfl⟩ : ∃ k, j = v.length + k := ⟨j - v.length, by omega⟩
      rw [hbefore, hdrop] at hq
      rw [hflag] at hj
      exact ⟨k, q, by omega, by omega, hq, hj⟩
  · rintro ⟨j, q, hji, hiq, hq, hj⟩
    exact ⟨v.length + j, q, by omega, by omega, by rw [hbefore, hdrop]; exact hq, by rw [hflag]; exact hj⟩

theorem traced_append {tail : List Trace} (hv : v ≠ [])
    (hown : ownStrings (v ++ u) = v.map (fun _ => own) ++ ownStrings u)
    (hin : ∀ j q, j < v.length → own = false →
      spelling? qs (((v ++ u).take j).getLast?.or before) ((v ++ u).drop j) = some q → j + q.length ≤ v.length)
    (hfirst : ∀ i, i < v.length → (b = false ↔ Reached qs before (v ++ u) i))
    (ih : ∀ i, tail[i]?.map (·.stays) = some false ↔ Reached qs v.getLast? u i) (i : Nat) :
    (mark b v ++ tail)[i]?.map (·.stays) = some false ↔ Reached qs before (v ++ u) i := by
  by_cases hi : i < v.length
  · rw [List.getElem?_append_left (by simpa using hi), ← hfirst i hi]
    simp [mark, hi]
  · obtain ⟨k, rfl⟩ : ∃ k, i = v.length + k := ⟨i - v.length, by omega⟩
    rw [reached_append hv hown hin, ← ih k, List.getElem?_append_right (by simp)]
    simp

end Reached

section Stays

variable {schema : Text}

/-- What is dropped are the qualifiers outside of the string literals as they are read here. -/
theorem traceFrom_iff (hne : schema ≠ []) (hw : ∀ c ∈ schema, isNamePart c = true) (before : Option Char)
    (text : Text) (i : Nat) :
    (traceFrom (spellings schema) before text)[i]?.map (·.stays) = some false ↔
      Reached (spellings schema) before text i := by
  fun_induction traceFrom (spellings schema) before text generalizing i with
  | case1 before =>
    refine ⟨fun h => by simp at h, fun ⟨j, q, _, _, _, h⟩ => by simp [ownStrings] at h⟩
  | case2 before c rest q hq n ih =>
    obtain ⟨-, hmem, hstarts⟩ := (spelling?_eq_some_iff hne hw).mp hq
    have hlen := starts_length hstarts
    have hpos := length_pos_of_mem_spellings hmem
    have hvu : c :: rest = (c :: rest.take n) ++ rest.drop n := by simp
    have hvlen : (c :: rest.take n).length = q.length := by
      simp only [List.length_cons, List.length_take] at hlen ⊢
      omega
    have htake : (c :: rest).take q.length = c :: rest.take n := by
      rw [hvu, ← hvlen, List.take_left]
    have hown := ownStrings_append (htake ▸ ne_quote_of_spelled hw hmem hstarts) (rest.drop n)
    have hin : ∀ j q', j < (c :: rest.take n).length → spelling? (spellings schema)
        (((c :: rest.take n ++ rest.drop n).take j).getLast?.or before)
        ((c :: rest.take n ++ rest.drop n).drop j) = some q' → j = 0 ∧ q' = q := fun j q' hj hq' => by
      rw [← hvu] at hq'
      rcases Nat.eq_zero_or_pos j with rfl | h0
      · exact ⟨rfl, Option.some.inj (hq'.symm.trans hq)⟩
      · have hlast : ((c :: rest).take j).getLast?.or before = ((c :: rest).take j).getLast? := by
          obtain ⟨k, rfl⟩ : ∃ k, j = k + 1 := ⟨j - 1, by omega⟩
          simp [List.getLast?_cons]
        rw [hlast, spelling?_within hne hw hq h0 (by omega)] at hq'
        cases hq'
    rw [hvu]
    refine traced_append (by simp) hown (fun j q' hj _ hq' => ?_) (fun i hi => ⟨fun _ => ?_, fun _ => rfl⟩) ih i
    · obtain ⟨rfl, rfl⟩ := hin j q' hj hq'
      omega
    · exact ⟨0, q, Nat.zero_le i, by omega, by rw [← hvu]; exact hq, by rw [hown]; rfl⟩
  | case3 before c rest hq n hs ih =>
    have hvu : c :: rest = (c :: rest.take n) ++ rest.drop n := by simp
    have hown : ownStrings (c :: rest.take n ++ rest.drop n) =
        (c :: rest.take n).map (fun _ => true) ++ ownStrings (rest.drop n) := by
      rw [← hvu, ownStrings, hs]
    rw [hvu]
    refine traced_append (by simp) hown (fun _ _ _ h _ => absurd h (by decide))
      (fun i hi => ⟨fun h : true = false => absurd h (by decide), ?_⟩) ih i
    rintro ⟨j, q, hji, _, _, hj⟩
    rw [hown, List.getElem?_append_left (by simp at hi ⊢; omega), List.getElem?_map] at hj
    obtain ⟨_, _, h⟩ := Option.map_eq_some_iff.mp hj
    cases h
  | case4 before c rest hq hs ih =>
    have hown : ownStrings ([c] ++ rest) = [c].map (fun _ => false) ++ ownStrings rest := by
      rw [List.singleton_append, ownStrings, hs]; rfl
    have hno : ∀ j q, j < [c].length → ¬ spelling? (spellings schema)
        ((([c] ++ rest).take j).getLast?.or before) (([c] ++ rest).drop j) = some q := fun j q hj h => by
      have h0 : j = 0 := by simpa using hj
      subst h0
      exact absurd (h.symm.trans hq) (by simp)
    refine traced_append (by simp) hown (fun j q hj _ h => absurd h (hno j q hj))
      (fun i hi => ⟨fun h : true = false => absurd h (by decide), ?_⟩) ih i
    rintro ⟨j, q, hji, _, hq', _⟩
    exact absurd hq' (hno j q (by omega))

/-- No two qualifiers overlap. -/
theorem eq_of_overlap (hne : schema ≠ []) (hw : ∀ c ∈ schema, isNamePart c = true) {text q q' : Text} {i j : Nat}
    (hi : spelling? (spellings schema) (text.take i).getLast? (text.drop i) = some q)
    (hj : spelling? (spellings schema) (text.take j).getLast? (text.drop j) = some q') (hji : j ≤ i)
    (hq : i < j + q'.length) : j = i := by
  rcases Nat.eq_or_lt_of_le hji with h | h
  · exact h
  · obtain ⟨k, rfl⟩ : ∃ k, i = j + k := ⟨i - j, by omega⟩
    have hwithin := spelling?_within hne hw hj (by omega : 0 < k) (by omega)
    have hlast : (text.take (j + k)).getLast? = ((text.drop j).take k).getLast? := by
      obtain ⟨-, -, hs⟩ := (spelling?_eq_some_iff hne hw).mp hj
      have hlen := starts_length hs
      have hne' : (text.drop j).take k ≠ [] := fun e => by
        have := congrArg List.length e
        simp only [List.length_take, List.length_nil] at this
        omega
      rw [List.take_add, List.getLast?_append, List.getLast?_eq_some_getLast hne']
      rfl
    rw [hlast, ← List.drop_drop, hwithin] at hi
    cases hi

theorem length_ownStrings (text : Text) : (ownStrings text).length = text.length := by
  fun_induction ownStrings text with
  | case1 => rfl
  | case2 c rest n h ih =>
    simp only [List.length_append, List.length_map, List.length_cons, ih, List.length_take, List.length_drop]
    omega
  | case3 c rest h ih => simp [ih]

/-- Is the character at position `i` dropped? -/
def Drops (schema text : Text) (i : Nat) : Prop := (trace schema text)[i]?.map (·.stays) = some false

/-- Does a string literal hold position `i`, as `strip` reads the text? -/
def InOwnString (text : Text) (i : Nat) : Prop := (ownStrings text)[i]? = some true

/-- Does a string literal of the text hold position `i`? -/
def InString (text : Text) (i : Nat) : Prop :=
  ∃ r ∈ regions text, r.kind = .literal ∧ text[r.start]? ≠ some '\x60' ∧ r.covers i = true

/-- Does position `i` stand outside of literals and comments, or where one starts? -/
def Outside (text : Text) (i : Nat) : Prop := ∀ r ∈ regions text, ¬ (r.start < i ∧ i < r.stop)

/-- The qualifier spelled as `q` stands at position `i`, where a name may start. -/
def StandsAt (schema text : Text) (i : Nat) (q : Text) : Prop :=
  startsName (text.take i).getLast? = true ∧ q ∈ spellings schema ∧ Text.starts q (text.drop i) = true

theorem inString_iff {text : Text} {i : Nat} :
    InString text i ↔ ∃ ms t ns, pieces text = ms ++ .region .literal t :: ns ∧ t.head? ≠ some '\x60' ∧
      (textOf ms).length ≤ i ∧ i < (textOf ms).length + t.length := by
  have hget : ∀ {ms t ns}, pieces text = ms ++ .region .literal t :: ns → text[(textOf ms).length]? = t.head? := by
    intro ms t ns h
    obtain ⟨q, u, rfl, -⟩ := quote_of_literal h
    have htext : text = textOf ms ++ (q :: u ++ textOf ns) := by
      rw [← textOf_pieces text, h, textOf_append, textOf_cons]; rfl
    rw [htext, List.getElem?_append_right (Nat.le_refl _)]
    simp
  constructor
  · rintro ⟨⟨kind, start, stop⟩, hr, rfl, hb, hc⟩
    obtain ⟨ms, t, ns, h, h1, h2⟩ := mem_regionsFrom.mp hr
    simp only [Region.covers, Bool.and_eq_true, decide_eq_true_eq, Nat.zero_add] at hb hc h h1 h2
    rw [h1, hget h] at hb
    exact ⟨ms, t, ns, h, hb, by omega, by omega⟩
  · rintro ⟨ms, t, ns, h, hb, h1, h2⟩
    refine ⟨⟨.literal, (textOf ms).length, (textOf ms).length + t.length⟩, ?_, rfl, by rw [hget h]; exact hb, ?_⟩
    · exact mem_regionsFrom.mpr ⟨ms, t, ns, h, by simp, rfl⟩
    · simp [Region.covers, h1, h2]

theorem standsAt_iff (hne : schema ≠ []) (hw : ∀ c ∈ schema, isNamePart c = true) {text q : Text} {i : Nat} :
    StandsAt schema text i q ↔ spelling? (spellings schema) (text.take i).getLast? (text.drop i) = some q :=
  (spelling?_eq_some_iff hne hw).symm

/-- A character is dropped if it belongs to a qualifier outside of the string literals as `strip` reads them. -/
theorem drops_iff (hne : schema ≠ []) (hw : ∀ c ∈ schema, isNamePart c = true) (text : Text) (i : Nat) :
    Drops schema text i ↔ ∃ j q, j ≤ i ∧ i < j + q.length ∧ StandsAt schema text j q ∧ ¬ InOwnString text j := by
  rw [Drops, trace, traceFrom_iff hne hw]
  simp only [Reached, Option.or_none, ← standsAt_iff hne hw, InOwnString]
  refine exists_congr fun j => exists_congr fun q => and_congr_right fun _ => and_congr_right fun hi =>
    and_congr_right fun hs => ?_
  have hlt : j < (ownStrings text).length := by
    have hlen := starts_length hs.2.2
    rw [length_ownStrings]
    rw [List.length_drop] at hlen
    have hpos := length_pos_of_mem_spellings hs.2.1
    omega
  rw [List.getElem?_eq_getElem hlt]
  simp

/-- No string literal starts at a character of a qualifier. -/
theorem StandsAt.not_literal (hw : ∀ c ∈ schema, isNamePart c = true) {text q t : Text} {j : Nat} {ms ns : List Piece}
    (hs : StandsAt schema text j q) (hp : pieces text = ms ++ .region .literal t :: ns) (hb : t.head? ≠ some '\x60') :
    ¬ (j ≤ (textOf ms).length ∧ (textOf ms).length < j + q.length) := by
  rintro ⟨hle, hlt⟩
  obtain ⟨c, u, rfl, hquote⟩ := quote_of_literal hp
  have hmem : c ∈ (text.drop j).take q.length := by
    refine List.mem_iff_getElem?.mpr ⟨(textOf ms).length - j, ?_⟩
    rw [List.getElem?_take, if_pos (by omega), List.getElem?_drop, Nat.add_sub_cancel' hle, ← List.head?_drop,
      drop_of_pieces hp rfl]
    rfl
  obtain ⟨h1, h2⟩ := ne_quote_of_spelled hw hs.2.1 hs.2.2 c hmem
  have h3 : c ≠ '\x60' := fun e => hb (by rw [e]; rfl)
  simp [isQuote, h1, h2, h3] at hquote

/-- A qualifier that reaches into a string literal stands in it from its start. -/
theorem InString.start (hw : ∀ c ∈ schema, isNamePart c = true) {text q : Text} {i j : Nat} (h : InString text i)
    (hs : StandsAt schema text j q) (hji : j ≤ i) (hq : i < j + q.length) : InString text j := by
  obtain ⟨ms, t, ns, hp, hb, h1, h2⟩ := inString_iff.mp h
  have hstart := hs.not_literal hw hp hb
  exact inString_iff.mpr ⟨ms, t, ns, hp, hb, by omega, by omega⟩

/-- String literals stay whole, and the qualifiers outside of literals and comments are dropped. -/
def DropsExactly (schema text : Text) : Prop :=
  (∀ i, InString text i → ¬ Drops schema text i) ∧
    ∀ i q, StandsAt schema text i q → Outside text i → ∀ k, i ≤ k → k < i + q.length → Drops schema text k

/-- At every qualifier the string literals of the text are the ones that `strip` reads. -/
def ReadsAlike (schema text : Text) : Prop :=
  ∀ i q, StandsAt schema text i q → (InString text i → InOwnString text i) ∧ (Outside text i → ¬ InOwnString text i)

theorem dropsExactly_iff (hne : schema ≠ []) (hw : ∀ c ∈ schema, isNamePart c = true) (text : Text) :
    DropsExactly schema text ↔ ReadsAlike schema text := by
  constructor
  · rintro ⟨hstring, hcode⟩ i q hs
    have hpos : i < i + q.length := Nat.lt_add_of_pos_right (length_pos_of_mem_spellings hs.2.1)
    constructor
    · intro hi
      by_cases hown : InOwnString text i
      · exact hown
      · exact absurd ((drops_iff hne hw text i).mpr ⟨i, q, Nat.le_refl i, hpos, hs, hown⟩) (hstring i hi)
    · intro ho
      obtain ⟨j, q', hji, hiq, hs', hown⟩ := (drops_iff hne hw text i).mp (hcode i q hs ho i (Nat.le_refl i) hpos)
      have hij : j = i :=
        eq_of_overlap hne hw ((standsAt_iff hne hw).mp hs) ((standsAt_iff hne hw).mp hs') hji hiq
      rw [← hij]
      exact hown
  · intro h
    constructor
    · intro i hi hd
      obtain ⟨j, q, hji, hiq, hs, hown⟩ := (drops_iff hne hw text i).mp hd
      exact hown ((h j q hs).1 (hi.start hw hs hji hiq))
    · intro i q hs ho k hik hkq
      exact (drops_iff hne hw text k).mpr ⟨i, q, hik, hkq, hs, (h i q hs).2 ho⟩

/-- **Which qualifiers are dropped.** The stripped text is what `trace` lets stay. String literals stay whole and the
qualifiers outside of literals and comments are dropped, exactly if at every qualifier the string literals of the text
are the ones that `strip` reads. -/
theorem strip_dropsExactly_iff (hne : schema ≠ []) (hw : ∀ c ∈ schema, isNamePart c = true) (text : Text) :
    (strip schema text).text = ((trace schema text).filter (·.stays)).map (·.char) ∧
      (trace schema text).map (·.char) = text ∧ (DropsExactly schema text ↔ ReadsAlike schema text) :=
  ⟨text_strip hne text, map_char_traceFrom _ _ _, dropsExactly_iff hne hw text⟩

/-- An apostrophe in a comment lets a string literal lose a qualifier. -/
theorem not_dropsExactly_apostrophe :
    "lab".toList ≠ [] ∧ (∀ c ∈ "lab".toList, isNamePart c = true) ∧
      ¬ DropsExactly "lab".toList "# it\'s\nselect \'lab.x\'".toList := by
  refine ⟨by decide, by decide, fun h => ?_⟩
  have halike := (strip_dropsExactly_iff (by decide) (by decide) _).2.2.mp h
  have hstands : StandsAt "lab".toList "# it\'s\nselect \'lab.x\'".toList 15 "lab.".toList := by
    unfold StandsAt
    decide +kernel
  have hstring : InString "# it\'s\nselect \'lab.x\'".toList 15 := ⟨⟨.literal, 14, 21⟩, by decide +kernel⟩
  have hown : (ownStrings "# it\'s\nselect \'lab.x\'".toList)[15]? = some false := by decide +kernel
  have hboth := (halike 15 _ hstands).1 hstring
  rw [InOwnString, hown] at hboth
  cases hboth

/-! ## Texts without quotes in comments and quoted names -/

/-- For every character of some pieces whether it belongs to a string literal. -/
def stringMarks : List Piece → List Bool
  | [] => []
  | .code _ :: ps => false :: stringMarks ps
  | .region kind t :: ps => t.map (fun _ => decide (kind = .literal ∧ t.head? ≠ some '\x60')) ++ stringMarks ps

theorem stringMarks_append (ps qs : List Piece) : stringMarks (ps ++ qs) = stringMarks ps ++ stringMarks qs := by
  induction ps with
  | nil => rfl
  | cons p ps ih => cases p <;> simp [stringMarks, ih]

theorem length_stringMarks (ps : List Piece) : (stringMarks ps).length = (textOf ps).length := by
  induction ps with
  | nil => rfl
  | cons p ps ih =>
    cases p with
    | code c => simp [stringMarks, Piece.text, ih, Nat.add_comm]
    | region kind t => simp [stringMarks, Piece.text, ih]

theorem stringMarks_eq_true_iff {ps : List Piece} {i : Nat} :
    (stringMarks ps)[i]? = some true ↔ ∃ ms t ns, ps = ms ++ .region .literal t :: ns ∧ t.head? ≠ some '\x60' ∧
      (textOf ms).length ≤ i ∧ i < (textOf ms).length + t.length := by
  constructor
  · intro h
    induction ps generalizing i with
    | nil => simp [stringMarks] at h
    | cons p ps ih =>
      have hskip : ∀ k, i = p.text.length + k → (stringMarks ps)[k]? = some true →
          ∃ ms t ns, p :: ps = ms ++ .region .literal t :: ns ∧ t.head? ≠ some '\x60' ∧
            (textOf ms).length ≤ i ∧ i < (textOf ms).length + t.length := fun k hk hm => by
        obtain ⟨ms, t, ns, rfl, hb, h1, h2⟩ := ih hm
        refine ⟨p :: ms, t, ns, rfl, hb, ?_, ?_⟩ <;> (rw [textOf_cons, List.length_append]; omega)
      cases p with
      | code c =>
        cases i with
        | zero => simp [stringMarks] at h
        | succ i => exact hskip i (by simp [Piece.text, Nat.add_comm]) (by simpa [stringMarks] using h)
      | region kind t =>
        by_cases hlt : i < t.length
        · rw [stringMarks, List.getElem?_append_left (by simpa using hlt), List.getElem?_map,
            List.getElem?_eq_getElem hlt] at h
          simp only [Option.map_some, Option.some.injEq, decide_eq_true_eq] at h
          obtain ⟨rfl, hb⟩ := h
          exact ⟨[], t, ps, rfl, hb, Nat.zero_le i, by simpa using hlt⟩
        · refine hskip (i - t.length) (by simp only [Piece.text]; omega) ?_
          rw [stringMarks, List.getElem?_append_right (by simpa using hlt)] at h
          simpa using h
  · rintro ⟨ms, t, ns, rfl, hb, h1, h2⟩
    rw [stringMarks_append, List.getElem?_append_right (by rw [length_stringMarks]; exact h1), length_stringMarks,
      stringMarks, List.getElem?_append_left (by simp; omega), List.getElem?_map,
      List.getElem?_eq_getElem (by omega)]
    simp [hb]

/-- Without quotes in comments and quoted names, the string literals are the ones that `strip` reads. -/
theorem ownStrings_eq {text : Text}
    (h : ∀ kind t, .region kind t ∈ pieces text → kind = .comment ∨ t.head? = some '\x60' → '\'' ∉ t ∧ '"' ∉ t) :
    ownStrings text = stringMarks (pieces text) := by
  fun_induction pieces text with
  | case1 => simp [ownStrings, stringMarks]
  | case2 c rest kind n hr ih =>
    rw [stringMarks, ← ih fun k t hm => h k t (List.mem_cons_of_mem _ hm)]
    by_cases hs : kind = .literal ∧ (c :: rest.take n).head? ≠ some '\x60'
    · obtain ⟨rfl, hb⟩ := hs
      rcases regionTail?_cases hr with ⟨-, hl⟩ | ⟨hk, -⟩
      · have hs' : stringTail? c rest = some n := by
          rw [stringTail?, if_neg (by simpa using hb), hl]
        have hmark : decide (RegionKind.literal = .literal ∧ (c :: rest.take n).head? ≠ some '\x60') = true :=
          decide_eq_true ⟨rfl, hb⟩
        rw [ownStrings, hs', hmark]
      · cases hk
    · have hq : kind = .comment ∨ (c :: rest.take n).head? = some '\x60' := by
        cases kind with
        | comment => exact Or.inl rfl
        | literal => exact Or.inr (by simpa using hs)
      obtain ⟨h1, h2⟩ := h kind _ List.mem_cons_self hq
      have hown := ownStrings_append (fun d hd => ⟨fun e => h1 (e ▸ hd), fun e => h2 (e ▸ hd)⟩) (rest.drop n)
      rw [List.cons_append, List.take_append_drop] at hown
      simp only [hs, decide_false]
      exact hown
  | case3 c rest hr ih =>
    have hs : stringTail? c rest = none := by
      unfold stringTail?
      split
      · rfl
      · exact (regionTail?_eq_none_iff.mp hr).1
    rw [ownStrings, hs, stringMarks, ← ih fun k t hm => h k t (List.mem_cons_of_mem _ hm)]

/-- Without quotes in comments and quoted names, the right qualifiers are dropped. -/
theorem dropsExactly_of_quotes (hne : schema ≠ []) (hw : ∀ c ∈ schema, isNamePart c = true) {text : Text}
    (h : ∀ kind t, .region kind t ∈ pieces text → kind = .comment ∨ t.head? = some '\x60' → '\'' ∉ t ∧ '"' ∉ t) :
    DropsExactly schema text := by
  have hiff : ∀ i, InString text i ↔ InOwnString text i := fun i => by
    rw [inString_iff, InOwnString, ownStrings_eq h, stringMarks_eq_true_iff]
  refine (dropsExactly_iff hne hw text).mpr fun i q hs => ⟨(hiff i).mp, fun ho hi => ?_⟩
  obtain ⟨ms, t, ns, hp, hb, h1, h2⟩ := inString_iff.mp ((hiff i).mpr hi)
  have hlt : ¬ (textOf ms).length < i := fun hlt =>
    ho ⟨.literal, (textOf ms).length, (textOf ms).length + t.length⟩
      (mem_regionsFrom.mpr ⟨ms, t, ns, hp, by simp, rfl⟩) ⟨hlt, h2⟩
  -- so the literal would start where the qualifier does
  have hpos := length_pos_of_mem_spellings hs.2.1
  exact hs.not_literal hw hp hb ⟨by omega, by omega⟩

end Stays

end Qualifier

end SqlDialect
