import SqlDialect.Keyword
import SqlDialect.Proofs.Trim

/-!
# Keywords among pieces

`firstIn p` is the search among pieces for the first code character at which `p` holds of the character in front and
the text from there on. A keyword is made of word characters, so it stands within code and does not reach over a
character of another kind.

* `findKeyword_eq_firstIn`: the search for a keyword in a text is a search among its pieces.
* `firstIn_append`: the search goes through one part and then through the other, where nothing reaches across.
* `startsKeyword_append`: a keyword does not reach across where no word does.
-/

namespace SqlDialect

/-! ## Going along a text -/

section Along

variable {text rest : Text} {c : Char} {i : Nat}

theorem drop_succ (h : text.drop i = c :: rest) : text.drop (i + 1) = rest := by
  rw [← List.drop_drop, h]
  rfl

theorem drop_add_succ (h : text.drop i = c :: rest) (n : Nat) : text.drop (i + n + 1) = rest.drop n := by
  rw [Nat.add_right_comm, ← List.drop_drop, drop_succ h]

theorem length_of_drop (h : text.drop i = c :: rest) : text.length = i + rest.length + 1 := by
  have := congrArg List.length h
  simp only [List.length_drop, List.length_cons] at this
  omega

theorem lt_of_drop (h : text.drop i = c :: rest) : i < text.length := by
  rw [length_of_drop h]
  omega

theorem getLast?_take_succ (h : text.drop i = c :: rest) (n : Nat) :
    (text.take (i + n + 1)).getLast? = (c :: rest.take n).getLast? := by
  rw [Nat.add_assoc, List.take_add, h, List.take_succ_cons, List.getLast?_append]
  cases hl : (c :: rest.take n).getLast? with
  | none => simp at hl
  | some d => rfl

/-- In front of the next position stands the character of this one. -/
theorem getLast?_take_next (h : text.drop i = c :: rest) : (text.take (i + 1)).getLast? = some c :=
  getLast?_take_succ h 0

/-- What stands in a text behind `c` and the `n` characters that follow it. -/
theorem behind_tail (h : text.drop i = c :: rest) {n : Nat} (hn : n ≤ rest.length) :
    i + n + 1 ≤ text.length ∧ text.drop (i + n + 1) = rest.drop n ∧
      (text.take (i + n + 1)).getLast? = some ((c :: rest.take n).getLast (by simp)) := by
  have hlen := length_of_drop h
  refine ⟨by omega, drop_add_succ h n, ?_⟩
  rw [getLast?_take_succ h, List.getLast?_eq_some_getLast]

end Along

/-! ## Letter case -/

theorem toNat_toLower (c : Char) :
    c.toLower.toNat = if 65 ≤ c.toNat ∧ c.toNat ≤ 90 then c.toNat + 32 else c.toNat := by
  have hiff : (c.val ≥ 'A'.val ∧ c.val ≤ 'Z'.val) ↔ 65 ≤ c.toNat ∧ c.toNat ≤ 90 := by
    rw [ge_iff_le, UInt32.le_iff_toNat_le, UInt32.le_iff_toNat_le]
    exact Iff.rfl
  unfold Char.toLower
  split
  · next h =>
    rw [if_pos (hiff.mp h)]
    have h1 := (hiff.mp h).2
    have h2 : (c.val + ('a'.val - 'A'.val)).toNat = (c.toNat + 32) % 4294967296 := UInt32.toNat_add _ _
    show (c.val + ('a'.val - 'A'.val)).toNat = _
    omega
  · next h => rw [if_neg fun h' => h (hiff.mpr h')]

theorem isWord_iff {c : Char} :
    isWord c = true ↔ 48 ≤ c.toNat ∧ c.toNat ≤ 57 ∨ 65 ≤ c.toNat ∧ c.toNat ≤ 90 ∨ 97 ≤ c.toNat ∧ c.toNat ≤ 122 ∨
      c.toNat = 95 ∨ c.toNat = 36 ∨ 128 ≤ c.toNat := by
  have hc : ∀ d : Char, c = d ↔ c.toNat = d.toNat := fun d =>
    ⟨fun h => h ▸ rfl, fun h => Char.ext (UInt32.toNat_inj.mp h)⟩
  have hletter : c.isAlpha = (decide (c.val ≥ 'A'.val ∧ c.val ≤ 'Z'.val) || (c.val ≥ 'a'.val && c.val ≤ 'z'.val)) := rfl
  simp only [isWord, Char.isAlphanum, hletter, Char.isDigit, Bool.or_eq_true, Bool.and_eq_true, decide_eq_true_eq, hc,
    ge_iff_le, UInt32.le_iff_toNat_le]
  show ((((65 ≤ c.toNat ∧ c.toNat ≤ 90 ∨ 97 ≤ c.toNat ∧ c.toNat ≤ 122) ∨ 48 ≤ c.toNat ∧ c.toNat ≤ 57) ∨
    c.toNat = 95) ∨ c.toNat = 36) ∨ 128 ≤ c.toNat ↔ _
  omega

/-- Letter case makes no difference to what a word character is. -/
theorem isWord_toLower (c : Char) : isWord c.toLower = isWord c := by
  rw [Bool.eq_iff_iff, isWord_iff, isWord_iff, toNat_toLower]
  split <;> omega

/-- A character that is no letter equals no other character up to letter case. -/
theorem eq_of_toLower_eq {c d : Char} (h : c.toLower = d.toLower) (hd : isWord d = false) : c = d := by
  have hc : isWord c = false := by rw [← isWord_toLower, h, isWord_toLower, hd]
  have hself : ∀ {x : Char}, isWord x = false → x.toLower = x := fun {x} hx => by
    refine Char.ext (UInt32.toNat_inj.mp ?_)
    show x.toLower.toNat = x.toNat
    rw [toNat_toLower, if_neg]
    intro h
    rw [isWord_iff.mpr (by omega)] at hx
    cases hx
  rw [hself hc, hself hd] at h
  exact h

/-- The word that a text starts with, and what stands behind it. -/
theorem starts_iff {w t : Text} :
    Text.starts w t = true ↔ ∃ v u, t = v ++ u ∧ Text.lower v = Text.lower w := by
  induction w generalizing t with
  | nil => exact ⟨fun _ => ⟨[], t, rfl, rfl⟩, fun _ => by simp [Text.starts]⟩
  | cons d w ih =>
    cases t with
    | nil =>
      constructor
      · intro h
        simp [Text.starts] at h
      · rintro ⟨v, u, h, hl⟩
        rw [(List.append_eq_nil_iff.mp h.symm).1] at hl
        cases hl
    | cons c t =>
      simp only [Text.starts, Bool.and_eq_true, beq_iff_eq, ih]
      constructor
      · rintro ⟨hc, v, u, rfl, hl⟩
        exact ⟨c :: v, u, rfl, by simp [Text.lower] at hl ⊢; exact ⟨hc.symm, hl⟩⟩
      · rintro ⟨v, u, h, hl⟩
        cases v with
        | nil => cases hl
        | cons e v =>
          simp only [List.cons_append, List.cons.injEq] at h
          simp only [Text.lower, List.map_cons, List.cons.injEq] at hl
          exact ⟨by rw [h.1, hl.1], v, u, h.2, hl.2⟩

theorem length_eq_of_lower_eq {v w : Text} (h : Text.lower v = Text.lower w) : v.length = w.length := by
  have := congrArg List.length h
  simpa [Text.lower] using this

theorem lower_eq_append {v a b : Text} (h : Text.lower v = Text.lower (a ++ b)) :
    ∃ x y, v = x ++ y ∧ Text.lower x = Text.lower a ∧ Text.lower y = Text.lower b := by
  rw [Text.lower, Text.lower, List.map_append] at h
  exact List.map_eq_append_iff.mp h

/-- A text without letters is written in one way only. -/
theorem eq_of_lower_eq {x y : Text} (h : Text.lower x = Text.lower y) (hy : ∀ c ∈ y, isWord c = false) : x = y := by
  induction y generalizing x with
  | nil => exact List.map_eq_nil_iff.mp h
  | cons d y ih =>
    obtain ⟨c, x, rfl, hc, hx⟩ := List.map_eq_cons_iff.mp h
    rw [eq_of_toLower_eq hc (hy d List.mem_cons_self), ih hx fun e he => hy e (List.mem_cons_of_mem _ he)]

/-- A text that is a word up to letter case is made of word characters. -/
theorem isWord_of_lower_eq {v w : Text} (h : Text.lower v = Text.lower w) (hw : ∀ c ∈ w, isWord c = true) :
    ∀ c ∈ v, isWord c = true := by
  intro c hc
  have hm : c.toLower ∈ Text.lower w := h ▸ List.mem_map_of_mem hc
  obtain ⟨d, hd, he⟩ := List.mem_map.mp hm
  rw [← isWord_toLower, ← he, isWord_toLower, hw d hd]

/-! ## Searching among pieces -/

/-- How many characters stand before the first code character at which `p` holds, where `before` is the character in
front of the pieces. -/
def firstIn (p : Option Char → Text → Bool) (before : Option Char) : List Piece → Option Nat
  | [] => none
  | .region _ t :: ps => (firstIn p (t.getLast?.or before) ps).map (· + t.length)
  | .code c :: ps =>
    if p before (c :: textOf ps) then some 0 else (firstIn p (some c) ps).map (· + 1)

section FirstIn

variable {p : Option Char → Text → Bool} {before : Option Char} {ps qs : List Piece}

/-- The search for a keyword in a text is a search among its pieces. -/
theorem findKeyword_eq_firstIn (w : Text) (before : Option Char) (text : Text) :
    findKeyword w before text = firstIn (startsKeyword w) before (pieces text) := by
  fun_induction pieces text generalizing before with
  | case1 => simp [findKeyword, firstIn]
  | case2 c rest kind n hr ih =>
    have hlast : ∃ d, (c :: rest.take n).getLast? = some d := ⟨_, List.getLast?_eq_some_getLast (by simp)⟩
    obtain ⟨d, hd⟩ := hlast
    have hle := lt_of_regionTail? hr
    rw [findKeyword, hr]
    simp only [firstIn, hd, Option.some_or, ← ih, List.length_cons, List.length_take, Nat.min_eq_left hle]
  | case3 c rest hr ih =>
    rw [findKeyword, hr]
    simp only [firstIn, textOf_pieces, ← ih]

/-- The search goes through one part and then through the other, if what is sought does not reach across. -/
theorem firstIn_append (hj : ∀ b a u, u ≠ [] → textOf ps = a ++ u → p b (u ++ textOf qs) = p b u) :
    firstIn p before (ps ++ qs) =
      (firstIn p before ps).or
        ((firstIn p ((textOf ps).getLast?.or before) qs).map (· + (textOf ps).length)) := by
  induction ps generalizing before with
  | nil => simp [firstIn]
  | cons m ps ih =>
    have ih' := fun b => @ih b fun b a u hu ha => hj b (m.text ++ a) u hu (by rw [textOf_cons, ha, List.append_assoc])
    cases m with
    | region kind t =>
      simp only [List.cons_append, firstIn, ih', textOf_cons, Piece.text, List.getLast?_append, List.length_append]
      rw [Option.map_or, Option.map_map, Option.or_assoc]
      congr 2
      funext n
      simp only [Function.comp_apply]
      omega
    | code c =>
      have hc := hj before [] (c :: textOf ps) (by simp) rfl
      simp only [List.cons_append] at hc
      simp only [List.cons_append, firstIn, textOf_append, hc]
      split
      · rfl
      · rw [ih', Option.map_or, Option.map_map]
        simp only [textOf_cons, Piece.text, List.singleton_append, List.getLast?_cons, List.length_cons]
        congr 1
        have hb : (textOf ps).getLast?.or (some c) = some ((textOf ps).getLast?.getD c) := by
          cases (textOf ps).getLast? <;> rfl
        rw [hb]
        rfl

theorem firstIn_eq_none_of_imp {q : Option Char → Text → Bool} (h : ∀ b t, p b t = true → q b t = true)
    (hq : firstIn q before ps = none) : firstIn p before ps = none := by
  induction ps generalizing before with
  | nil => rfl
  | cons m ps ih =>
    cases m with
    | region kind t =>
      rw [firstIn, Option.map_eq_none_iff] at hq ⊢
      exact ih hq
    | code c =>
      rw [firstIn] at hq ⊢
      split at hq
      · cases hq
      · next hc =>
        rw [if_neg fun hp => hc (h _ _ hp), Option.map_eq_none_iff]
        exact ih (by simpa using hq)

end FirstIn

section Split

variable {p : Option Char → Text → Bool} {before : Option Char} {ps qs : List Piece} {n : Nat}

/-- What is found stands at a code character. -/
theorem firstIn_split (h : firstIn p before ps = some n) :
    ∃ ms c ns, ps = ms ++ .code c :: ns ∧ (textOf ms).length = n ∧
      p ((textOf ms).getLast?.or before) (c :: textOf ns) = true := by
  induction ps generalizing before n with
  | nil => cases h
  | cons m ps ih =>
    have hcons : ∀ {b : Option Char} {k}, firstIn p b ps = some k →
        (∀ ms, (textOf ms).getLast?.or b = (textOf (m :: ms)).getLast?.or before) → n = k + m.text.length →
        ∃ ms c ns, m :: ps = ms ++ .code c :: ns ∧ (textOf ms).length = n ∧
          p ((textOf ms).getLast?.or before) (c :: textOf ns) = true := fun {b k} hk hb hn => by
      obtain ⟨ms, c, ns, rfl, hl, hp⟩ := ih hk
      exact ⟨m :: ms, c, ns, rfl, by rw [textOf_cons, List.length_append]; omega, by rw [← hb]; exact hp⟩
    cases m with
    | region kind t =>
      rw [firstIn] at h
      obtain ⟨k, hk, rfl⟩ := Option.map_eq_some_iff.mp h
      refine hcons hk (fun ms => ?_) rfl
      rw [textOf_cons, List.getLast?_append, Option.or_assoc]
      rfl
    | code c =>
      rw [firstIn] at h
      split at h
      · next hp =>
        cases h
        exact ⟨[], c, ps, rfl, rfl, by simpa using hp⟩
      · obtain ⟨k, hk, rfl⟩ := Option.map_eq_some_iff.mp h
        refine hcons hk (fun ms => ?_) rfl
        rw [textOf_cons, List.getLast?_append, Option.or_assoc]
        rfl

/-- Nothing is found if `p` holds at no code character. -/
theorem firstIn_eq_none_iff :
    firstIn p before ps = none ↔
      ∀ ms c ns, ps = ms ++ .code c :: ns → p ((textOf ms).getLast?.or before) (c :: textOf ns) = false := by
  induction ps generalizing before with
  | nil => simp [firstIn]
  | cons m ps ih =>
    have hshift : ∀ {b : Option Char}, (∀ ms, (textOf ms).getLast?.or b = (textOf (m :: ms)).getLast?.or before) →
        ((∀ ms c ns, ps = ms ++ .code c :: ns → p ((textOf ms).getLast?.or b) (c :: textOf ns) = false) ↔
          ∀ ms c ns, m :: ps = (m :: ms) ++ .code c :: ns →
            p ((textOf (m :: ms)).getLast?.or before) (c :: textOf ns) = false) := fun {b} hb => by
      simp only [List.cons_append, List.cons.injEq, true_and, hb]
    cases m with
    | region kind t =>
      rw [firstIn, Option.map_eq_none_iff, ih, hshift fun ms => by
        rw [textOf_cons, List.getLast?_append, Option.or_assoc]; rfl]
      constructor
      · intro h ms c ns he
        cases ms with
        | nil => cases he
        | cons m' ms =>
          have he' := he
          rw [List.cons_append, List.cons.injEq] at he'
          obtain ⟨rfl, -⟩ := he'
          exact h ms c ns he
      · exact fun h ms c ns he => h _ c ns he
    | code d =>
      have hd : ∀ ms : List Piece, (textOf ms).getLast?.or (some d) = (textOf (.code d :: ms)).getLast?.or before :=
        fun ms => by rw [textOf_cons, List.getLast?_append, Option.or_assoc]; rfl
      rw [firstIn]
      constructor
      · intro h ms c ns he
        split at h
        · cases h
        · next hp =>
          cases ms with
          | nil =>
            rw [List.nil_append, List.cons.injEq, Piece.code.injEq] at he
            obtain ⟨rfl, rfl⟩ := he
            simpa using hp
          | cons m' ms =>
            have he' := he
            rw [List.cons_append, List.cons.injEq] at he'
            obtain ⟨rfl, -⟩ := he'
            exact (hshift hd).mp (ih.mp (Option.map_eq_none_iff.mp h)) ms c ns he
      · intro h
        rw [if_neg (by simpa using h [] d ps rfl), Option.map_eq_none_iff, ih, hshift hd]
        exact fun ms c ns he => h _ c ns he

end Split

/-- What stands at a code character is found there or before. -/
theorem firstIn_le {p : Option Char → Text → Bool} {before : Option Char} {ms ns : List Piece} {c : Char}
    (h : p ((textOf ms).getLast?.or before) (c :: textOf ns) = true) :
    ∃ n, n ≤ (textOf ms).length ∧ firstIn p before (ms ++ .code c :: ns) = some n := by
  induction ms generalizing before with
  | nil => exact ⟨0, Nat.le_refl 0, by simpa [firstIn] using h⟩
  | cons m ms ih =>
    have hstep : ∀ {b : Option Char}, (textOf ms).getLast?.or b = (textOf (m :: ms)).getLast?.or before →
        firstIn p before (m :: ms ++ .code c :: ns) = (firstIn p b (ms ++ .code c :: ns)).map (· + m.text.length) →
        ∃ n, n ≤ (textOf (m :: ms)).length ∧ firstIn p before (m :: ms ++ .code c :: ns) = some n := fun {b} hb he => by
      rw [← hb] at h
      obtain ⟨n, hn, hf⟩ := ih h
      exact ⟨n + m.text.length, by rw [textOf_cons, List.length_append]; omega, by rw [he, hf]; rfl⟩
    have hb : ∀ {b : Option Char}, m.text.getLast?.or before = b →
        (textOf ms).getLast?.or b = (textOf (m :: ms)).getLast?.or before := fun hb => by
      rw [textOf_cons, List.getLast?_append, Option.or_assoc, hb]
    cases m with
    | region kind t => exact hstep (hb rfl) rfl
    | code d =>
      by_cases hd : p before (d :: textOf (ms ++ .code c :: ns)) = true
      · exact ⟨0, Nat.zero_le _, by rw [List.cons_append, firstIn, if_pos hd]⟩
      · exact hstep (hb rfl) (by rw [List.cons_append, firstIn, if_neg hd]; rfl)

/-- What does not stand in a text does not stand in a part of it, if it is the same there. -/
theorem firstIn_part {p : Option Char → Text → Bool} {before : Option Char} {xs ps ys : List Piece}
    (h : firstIn p before (xs ++ (ps ++ ys)) = none) (hb : ∀ t, p ((textOf xs).getLast?.or before) t = p none t)
    (hj : ∀ b u, u ≠ [] → p b (u ++ textOf ys) = p b u) : firstIn p none ps = none := by
  rw [firstIn_eq_none_iff] at h ⊢
  rintro ms c ns rfl
  have h' := h (xs ++ ms) c (ns ++ ys) (by simp)
  rw [textOf_append, textOf_append, ← List.cons_append, hj _ _ (by simp), List.getLast?_append, Option.or_assoc] at h'
  cases hm : (textOf ms).getLast? with
  | none => rw [hm, Option.none_or, hb] at h'; exact h'
  | some d => rw [hm] at h'; exact h'

/-- The search in a text alone is the one in its pieces in front of a parenthesis, if no dash is sought. -/
theorem Reads.firstIn_alone {p : Option Char → Text → Bool} (hp : ∀ b t, p b ('-' :: t) = false) {a : Text}
    {ps : List Piece} (h : Reads a [')'] ps) (before : Option Char) :
    firstIn p before (pieces a) = firstIn p before ps := by
  rcases h.alone with he | ⟨ms, rfl, he⟩
  · rw [he]
  · rw [he]
    clear h he
    induction ms generalizing before with
    | nil => simp [firstIn, hp]
    | cons m ms ih =>
      cases m with
      | region kind t => simp only [List.cons_append, firstIn, ih]
      | code c => simp [firstIn, ih, Piece.text]

/-! ## Words -/

/-- No word character opens a region. -/
theorem regionTail?_of_isWord {c : Char} (h : isWord c = true) (rest : Text) : regionTail? c rest = none :=
  regionTail?_of_class (by decide) h rest

theorem isWord_of_isBlank {c : Char} (h : isBlank c = true) : isWord c = false := by
  simp only [isBlank, Bool.or_eq_true, decide_eq_true_eq] at h
  rcases h with (((rfl | rfl) | rfl) | rfl) | rfl <;> decide

/-- Behind a region that ends in a word character no word starts. -/
theorem isWord_of_region {kind : RegionKind} {t u : Text} (h : pieces (t ++ u) = .region kind t :: pieces u)
    (hu : u.head?.any isWord = true) : t.getLast?.any isWord = false := by
  cases t with
  | nil => rfl
  | cons c a =>
    have hr := regionTail?_of_pieces h
    rcases regionTail?_cases hr with ⟨-, hl⟩ | ⟨-, hc⟩
    · obtain ⟨hq, hl⟩ := getLast?_of_literalTail? hl
      rw [List.take_left] at hl
      rw [List.getLast?_cons, hl]
      exact Bool.eq_false_iff.mpr fun hw => by
        rw [regionTail?_of_isWord (c := c) (by simpa using hw)] at hr
        cases hr
    · rcases end_of_commentTail? hc with he | rfl | he
      · rw [he]
        decide
      · cases hu
      · rw [he] at hu
        exact absurd hu (by decide)

/-- Words are code. -/
theorem reads_word {v : Text} (hv : ∀ c ∈ v, isWord c = true) (r : Text) : Reads v r (v.map .code) := by
  induction v with
  | nil => exact Reads.nil r
  | cons c v ih =>
    have h := ih fun d hd => hv d (List.mem_cons_of_mem _ hd)
    unfold Reads at h ⊢
    rw [List.cons_append, pieces_code (regionTail?_of_isWord (hv c List.mem_cons_self) _), h]
    rfl

/-- No word goes across from `a` to `b`. -/
def WordBreak (a b : Text) : Prop :=
  (∀ c, a.getLast? = some c → isWord c = false) ∨ ∀ c, b.head? = some c → isWord c = false

theorem WordBreak.of_append {a b r : Text} (h : WordBreak (a ++ b) r) : WordBreak b r :=
  h.imp_left fun h c hc => h c (by rw [List.getLast?_append, hc]; rfl)

section Keyword

variable {w : Text} {before : Option Char}

/-- A keyword does not reach across where no word does. -/
theorem startsKeyword_append (hw : ∀ c ∈ w, isWord c = true) {u r : Text} (hu : u ≠ []) (hb : WordBreak u r) :
    startsKeyword w before (u ++ r) = startsKeyword w before u := by
  have hlast : ∀ {v : Text}, v ≠ [] → Text.lower v = Text.lower w → ∃ c, v.getLast? = some c ∧ isWord c = true :=
    fun {v} hv hl => ⟨_, List.getLast?_eq_some_getLast hv, isWord_of_lower_eq hl hw _ (List.getLast_mem hv)⟩
  by_cases hs : Text.starts w u = true
  · obtain ⟨v, x, rfl, hl⟩ := starts_iff.mp hs
    have hs' : Text.starts w (v ++ x ++ r) = true := starts_iff.mpr ⟨v, x ++ r, by simp, hl⟩
    have hlen := length_eq_of_lower_eq hl
    have h1 : (v ++ x ++ r).drop w.length = x ++ r := by rw [← hlen, List.append_assoc, List.drop_left]
    have h2 : (v ++ x).drop w.length = x := by rw [← hlen, List.drop_left]
    rw [startsKeyword, startsKeyword, hs, hs', h1, h2]
    congr 2
    cases x with
    | cons d x => rfl
    | nil =>
      rw [List.append_nil] at hb hu
      obtain ⟨c, hc, hcw⟩ := hlast hu hl
      rcases hb with hb | hb
      · rw [hb c hc] at hcw
        cases hcw
      · cases r with
        | nil => rfl
        | cons d r => simp [hb d rfl]
  · have hs' : Text.starts w (u ++ r) = false := by
      rw [Bool.eq_false_iff]
      intro h
      obtain ⟨v, x, he, hl⟩ := starts_iff.mp h
      rcases List.append_eq_append_iff.mp he with ⟨y, rfl, hy⟩ | ⟨y, rfl, hy⟩
      · cases y with
        | nil => exact hs (starts_iff.mpr ⟨u, [], by simp, by simpa using hl⟩)
        | cons d y =>
          have hd := isWord_of_lower_eq hl hw d (by simp)
          rcases hb with hb | hb
          · have hmem := List.getLast_mem hu
            have := isWord_of_lower_eq hl hw _ (List.mem_append_left _ hmem)
            rw [hb _ (List.getLast?_eq_some_getLast hu)] at this
            cases this
          · rw [hb d (by rw [hy]; rfl)] at hd
            cases hd
      · exact hs (starts_iff.mpr ⟨v, y, rfl, hl⟩)
    rw [startsKeyword, startsKeyword, hs', Bool.eq_false_iff.mpr hs]
    simp

/-- The search for a keyword goes through one part and then through the other, where no word goes across. -/
theorem firstIn_keyword_append (hw : ∀ c ∈ w, isWord c = true) {ps qs : List Piece}
    (hb : WordBreak (textOf ps) (textOf qs)) :
    firstIn (startsKeyword w) before (ps ++ qs) =
      (firstIn (startsKeyword w) before ps).or
        ((firstIn (startsKeyword w) ((textOf ps).getLast?.or before) qs).map (· + (textOf ps).length)) := by
  refine firstIn_append fun b a u hu ha => startsKeyword_append hw hu ?_
  rw [ha] at hb
  exact hb.of_append

/-- A keyword stands in neither of two parts and reaches over no place between them. -/
theorem firstIn_keyword_none (hw : ∀ c ∈ w, isWord c = true) {ps qs : List Piece}
    (hb : WordBreak (textOf ps) (textOf qs)) (h₁ : firstIn (startsKeyword w) before ps = none)
    (h₂ : ∀ b, (textOf ps).getLast?.or before = b → firstIn (startsKeyword w) b qs = none) :
    firstIn (startsKeyword w) before (ps ++ qs) = none := by
  rw [firstIn_keyword_append hw hb, h₁, h₂ _ rfl]
  rfl

/-- A character in front that is no word character makes no difference. -/
theorem startsKeyword_before (h : before.any isWord = false) (t : Text) :
    startsKeyword w before t = startsKeyword w none t := by
  simp [startsKeyword, h]

theorem before_of_startsKeyword (hne : w ≠ []) (hw : ∀ c ∈ w, isWord c = true) {t : Text}
    (h : startsKeyword w before t = true) : before.any isWord = false := by
  obtain ⟨c, w, rfl⟩ := List.exists_cons_of_ne_nil hne
  have hc := hw c List.mem_cons_self
  simp only [startsKeyword, List.head?_cons, Option.any_some, hc, Bool.true_and, Bool.and_eq_true,
    Bool.not_eq_true'] at h
  exact h.1.2

/-- A keyword does not start behind a word character. -/
theorem startsKeyword_behind_word (hne : w ≠ []) (hw : ∀ c ∈ w, isWord c = true) {b : Char} (hb : isWord b = true)
    (t : Text) : startsKeyword w (some b) t = false := by
  obtain ⟨c, w, rfl⟩ := List.exists_cons_of_ne_nil hne
  have hc := hw c List.mem_cons_self
  simp [startsKeyword, hc, hb]

/-- The word at the start of a text is the keyword that stands there. -/
theorem lower_takeWhile_of_startsKeyword (hne : w ≠ []) (hw : ∀ c ∈ w, isWord c = true) {t : Text}
    (h : startsKeyword w before t = true) : Text.lower (t.takeWhile isWord) = Text.lower w := by
  have hlast : w.getLast?.any isWord = true := by
    rw [List.getLast?_eq_some_getLast hne]
    exact hw _ (List.getLast_mem hne)
  simp only [startsKeyword, Bool.and_eq_true, Bool.not_eq_true', hlast, Bool.true_and] at h
  obtain ⟨v, u, rfl, hv⟩ := starts_iff.mp h.1.1
  have hu := h.2
  rw [← length_eq_of_lower_eq hv, List.drop_left] at hu
  rw [takeWhile_whole (isWord_of_lower_eq hv hw) hu, hv]

/-- A word that is the keyword up to letter case, with no word character next to it. -/
theorem startsKeyword_of_lower_eq {v u : Text} (hv : Text.lower v = Text.lower w)
    (hb : before.any isWord = false) (hu : u.head?.any isWord = false) : startsKeyword w before (v ++ u) = true := by
  have h1 : Text.starts w (v ++ u) = true := starts_iff.mpr ⟨v, u, rfl, hv⟩
  have h2 : (v ++ u).drop w.length = u := by rw [← length_eq_of_lower_eq hv, List.drop_left]
  simp [startsKeyword, h1, h2, hb, hu]

/-- **Where a keyword is found.** It stands between whole pieces, and no word character is next to it. -/
theorem findKeyword_split (hne : w ≠ []) (hw : ∀ c ∈ w, isWord c = true) {text : Text} {n : Nat}
    (h : findKeyword w before text = some n) :
    ∃ ms v u, text = textOf ms ++ (v ++ u) ∧ pieces text = ms ++ (v.map .code ++ pieces u) ∧ (textOf ms).length = n ∧
      Text.lower v = Text.lower w ∧ ((textOf ms).getLast?.or before).any isWord = false ∧
      u.head?.any isWord = false := by
  rw [findKeyword_eq_firstIn] at h
  obtain ⟨ms, c, ns, hp, hl, hs⟩ := firstIn_split h
  simp only [startsKeyword, Bool.and_eq_true, Bool.not_eq_true'] at hs
  obtain ⟨⟨hstart, hbefore⟩, hafter⟩ := hs
  obtain ⟨v, u, hvu, hv⟩ := starts_iff.mp hstart
  have hns := pieces_textOf hp
  rw [textOf_cons] at hns
  have hns' : pieces (v ++ u) = .code c :: ns := by rw [← hvu]; exact hns
  rw [reads_word (isWord_of_lower_eq hv hw) u] at hns'
  have hhead : w.head?.any isWord = true := by
    obtain ⟨d, w, rfl⟩ := List.exists_cons_of_ne_nil hne
    simpa using hw d List.mem_cons_self
  have hlast : w.getLast?.any isWord = true := by
    rw [List.getLast?_eq_some_getLast hne]
    exact hw _ (List.getLast_mem hne)
  rw [hvu, ← length_eq_of_lower_eq hv, List.drop_left, hlast, Bool.true_and] at hafter
  rw [hhead, Bool.true_and] at hbefore
  refine ⟨ms, v, u, ?_, by rw [hp, hns'], hl, hv, hbefore, hafter⟩
  rw [← hvu, ← textOf_pieces text, hp, textOf_append]
  rfl

end Keyword

/-- A character in front that is no word character makes no difference, if it makes none to what is sought. -/
theorem firstIn_before {p : Option Char → Text → Bool} {before before' : Option Char}
    (h : ∀ t, p before t = p before' t) (ps : List Piece) : firstIn p before ps = firstIn p before' ps := by
  induction ps with
  | nil => rfl
  | cons m ps ih =>
    cases m with
    | code c => simp [firstIn, h]
    | region kind t =>
      rw [firstIn, firstIn]
      cases t.getLast? with
      | none => simp [ih]
      | some d => rfl

/-- Where the first keyword is found, nothing that starts with one has been found before. -/
theorem firstIn_skip {p q : Option Char → Text → Bool} (h : ∀ b t, p b t = true → q b t = true) {ms qs : List Piece}
    {before : Option Char} (hq : firstIn q before (ms ++ qs) = some (textOf ms).length) :
    firstIn p before (ms ++ qs) =
      (firstIn p ((textOf ms).getLast?.or before) qs).map (· + (textOf ms).length) := by
  induction ms generalizing before with
  | nil => simp
  | cons m ms ih =>
    cases m with
    | region kind t =>
      simp only [List.cons_append, firstIn, textOf_cons, Piece.text, List.length_append] at hq ⊢
      obtain ⟨k, hk, hkn⟩ := Option.map_eq_some_iff.mp hq
      have hlen : k = (textOf ms).length := by omega
      rw [hlen] at hk
      rw [ih hk, Option.map_map, List.getLast?_append, Option.or_assoc]
      congr 1
      funext n
      simp only [Function.comp_apply]
      omega
    | code c =>
      simp only [List.cons_append, firstIn] at hq ⊢
      split at hq
      · simp [Piece.text] at hq
      · next hc =>
        rw [if_neg fun hp => hc (h _ _ hp)]
        obtain ⟨k, hk, hkn⟩ := Option.map_eq_some_iff.mp hq
        have hlen : k = (textOf ms).length := by
          simp only [textOf_cons, Piece.text, List.length_append, List.length_singleton] at hkn
          omega
        rw [hlen] at hk
        rw [ih hk, Option.map_map]
        simp only [textOf_cons, Piece.text, List.singleton_append, List.getLast?_cons, List.length_cons]
        cases (textOf ms).getLast? <;> rfl

/-- What does not start behind a word character does not start within a word. -/
theorem firstIn_word {p : Option Char → Text → Bool} (hp : ∀ b t, isWord b = true → p (some b) t = false) {b : Char}
    (hb : isWord b = true) {v : Text} (hv : ∀ c ∈ v, isWord c = true) (qs : List Piece) :
    firstIn p (some b) (v.map .code ++ qs) = (firstIn p (v.getLast?.or (some b)) qs).map (· + v.length) := by
  induction v generalizing b with
  | nil => simp
  | cons c v ih =>
    have hc := hv c List.mem_cons_self
    rw [List.map_cons, List.cons_append, firstIn, if_neg (by simp [hp b _ hb]),
      ih hc fun d hd => hv d (List.mem_cons_of_mem _ hd), Option.map_map]
    rw [List.getLast?_cons]
    cases v.getLast? <;> rfl

end SqlDialect
