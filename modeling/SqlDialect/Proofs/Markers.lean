import SqlDialect.Marker
import SqlDialect.Proofs.Words

/-!
# Counting markers part by part

A marker is two characters long, so a text may hold one that neither of its parts holds. `tally p` counts the places of
a text at which `p` holds of what follows. Where no marker goes across from one part to the other, the counts of the
parts add up, for everything that can be told from a marker and the character behind it.

* `tally_append`: the count of a text is the sum of the counts of its parts.
* `Seam.of_glued`: no marker goes across if none in the text has a word character directly behind it.
* `tally_isParameter`: the parameters of a text are its question marks and its markers.
-/

namespace SqlDialect.Marker

/-! ## Places in a text -/

/-- The number of places in a text where `p` holds of what follows. -/
def tally (p : Text → Bool) : Text → Nat
  | [] => 0
  | c :: rest => (if p (c :: rest) then 1 else 0) + tally p rest

/-- The letter of a marker, or with `either` the letter in either case. -/
def isLetter (either : Bool) (c : Char) : Bool := (if either then c.toLower else c) = 's'

/-- Does the text start with a question mark or with a marker? -/
def isParameter (text : Text) : Bool := text.head? = some '?' || (text.head? = some '%' && text[1]? = some 's')

/-- Does the text start with a marker that has a word character directly behind it? -/
def isGlued (either : Bool) (text : Text) : Bool :=
  text.head? = some '%' && text[1]?.any (isLetter either) && text[2]?.any isWord

/-- Does the text start with a question mark, or with a marker that has no word character directly behind it? -/
def isFree (text : Text) : Bool :=
  text.head? = some '?' || (text.head? = some '%' && text[1]? = some 's' && !text[2]?.any isWord)

/-- The text holds no question mark and no percent sign. -/
def Unmarked (text : Text) : Prop := ∀ c ∈ text, c ≠ '?' ∧ c ≠ '%'

instance (text : Text) : Decidable (Unmarked text) := inferInstanceAs (Decidable (∀ c ∈ text, c ≠ '?' ∧ c ≠ '%'))

theorem unmarked_of_isWord {v : Text} (h : ∀ c ∈ v, isWord c = true) : Unmarked v := by
  intro c hc
  have hword := h c hc
  constructor
  · rintro rfl
    cases hword
  · rintro rfl
    cases hword

theorem unmarked_of_isSpace {s : Text} (h : ∀ c ∈ s, isSpace c = true) : Unmarked s := by
  intro c hc
  have hspace := h c hc
  constructor
  · rintro rfl
    cases hspace
  · rintro rfl
    cases hspace

theorem Unmarked.append {a b : Text} (ha : Unmarked a) (hb : Unmarked b) : Unmarked (a ++ b) := by
  intro c hc
  rcases List.mem_append.mp hc with hc | hc
  · exact ha c hc
  · exact hb c hc

/-- A word of two or more characters goes on behind its first. -/
theorem second_of_lower_eq {v w : Text} (hv : Text.lower v = Text.lower w) (hw : ∀ c ∈ w, isWord c = true)
    (hlen : 2 ≤ w.length) (r : Text) : (v ++ r)[1]?.any isWord = true := by
  have hword := isWord_of_lower_eq hv hw
  rw [← length_eq_of_lower_eq hv] at hlen
  match v, hlen with
  | c :: d :: v, _ => exact hword d (by simp)

section

variable {p : Text → Bool} {either : Bool} {a b : Text}

theorem toLower_of_isLetter {c : Char} (h : isLetter either c = true) : c.toLower = 's' := by
  rw [isLetter, decide_eq_true_eq] at h
  cases either with
  | false =>
    rw [if_neg Bool.false_ne_true] at h
    rw [h]
    rfl
  | true => rwa [if_pos rfl] at h

theorem isLetter_of_toLower {c : Char} (h : c.toLower = 's') : isLetter true c = true := by
  rw [isLetter, if_pos rfl, h]
  rfl

theorem isName_of_isLetter {c : Char} (h : isLetter either c = true) : isName c = true := by
  rw [← isName_toLower, toLower_of_isLetter h]
  decide

theorem isLetter_of_isName {c : Char} (h : isName c = false) : isLetter either c = false := by
  cases hc : isLetter either c with
  | false => rfl
  | true =>
    rw [isName_of_isLetter hc] at h
    cases h

theorem head?_isLetter (h : b.head?.any isName = false) : b.head?.any (isLetter either) = false := by
  cases hb : b.head? with
  | none => rfl
  | some c =>
    rw [hb] at h
    exact isLetter_of_isName h

/-- The places of the first part count in the whole if `p` holds at them as before. -/
theorem tally_append_of (h : ∀ u, u ≠ [] → u <:+ a → p (u ++ b) = p u) : tally p (a ++ b) = tally p a + tally p b := by
  induction a with
  | nil => simp [tally]
  | cons c a ih =>
    have hc := h (c :: a) (by simp) (List.suffix_refl _)
    have hrest := ih fun u hu hs => h u hu (hs.trans (List.suffix_cons c a))
    rw [List.cons_append] at hc ⊢
    rw [tally, tally, hc, hrest, Nat.add_assoc]

theorem tally_le_append (p : Text → Bool) (a b : Text) : tally p b ≤ tally p (a ++ b) := by
  induction a with
  | nil => exact Nat.le_refl _
  | cons c a ih =>
    rw [List.cons_append, tally]
    omega

/-! ## Parts -/

/-- No marker goes across from `a` to `b`, and where `a` ends with one no word character starts `b`. -/
structure Seam (either : Bool) (a b : Text) : Prop where
  percent : a.getLast? = some '%' → b.head?.any (isLetter either) = false
  letter : ∀ k, isLetter either k = true → ['%', k] <:+ a → b.head?.any isWord = false

theorem Seam.drop {x : Text} (h : Seam either (x ++ a) b) : Seam either a b where
  percent hl := h.percent (by rw [List.getLast?_append, hl, Option.some_or])
  letter k hk hs := h.letter k hk (hs.trans (List.suffix_append x a))

/-- What no word character starts may stand behind every part. -/
theorem Seam.of_head (h : b.head?.any isWord = false) : Seam either a b where
  percent _ := by
    apply head?_isLetter
    cases hb : b.head? with
    | none => rfl
    | some c =>
      rw [hb] at h
      exact isName_of_isWord h
  letter _ _ _ := h

/-- Behind a text that ends with no name no marker goes on. -/
theorem not_marker_of_last (h : a.getLast?.any isName = false) {k : Char} (hk : isLetter either k = true) :
    ¬ ['%', k] <:+ a := by
  rintro ⟨x, rfl⟩
  rw [List.getLast?_append, List.getLast?_cons_cons, List.getLast?_singleton, Option.some_or, Option.any_some,
    isName_of_isLetter hk] at h
  cases h

theorem Seam.of_unmarked (h : Unmarked a) : Seam either a b where
  percent hl := absurd rfl (h _ (List.mem_of_getLast? hl)).2
  letter _ _ hs := absurd rfl (h '%' (hs.subset List.mem_cons_self)).2

/-- If no marker in the text has a word character directly behind it, none goes across to a part with two of them. -/
theorem Seam.of_glued (h : tally (isGlued either) (a ++ b) = 0)
    (hp : a.getLast? = some '%' → b.head?.any (isLetter either) = true → b[1]?.any isWord = true) :
    Seam either a b := by
  constructor
  · intro hl
    rw [Bool.eq_false_iff]
    intro hb
    obtain ⟨x, rfl⟩ := List.getLast?_eq_some_iff.mp hl
    have hle := tally_le_append (isGlued either) x ('%' :: b)
    have hglued : isGlued either ('%' :: b) = true := by
      have hword := hp hl hb
      cases b with
      | nil => cases hb
      | cons c b =>
        simp only [List.head?_cons, Option.any_some] at hb
        simpa [isGlued, hb] using hword
    rw [tally, hglued, if_pos rfl] at hle
    rw [List.append_assoc, List.singleton_append] at h
    omega
  · intro k hk hs
    rw [Bool.eq_false_iff]
    intro hb
    obtain ⟨x, rfl⟩ := hs
    have hle := tally_le_append (isGlued either) x ('%' :: k :: b)
    have hglued : isGlued either ('%' :: k :: b) = true := by
      cases b with
      | nil => cases hb
      | cons c b => simpa [isGlued, hk] using hb
    rw [tally, hglued, if_pos rfl] at hle
    rw [List.append_assoc, List.cons_append, List.singleton_append] at h
    omega

/-- `p` can be told from a marker and the character behind it. -/
structure Tells (either : Bool) (p : Text → Bool) : Prop where
  plain : ∀ c t, c ≠ '?' → c ≠ '%' → p (c :: t) = false
  append : ∀ u b, u ≠ [] → Seam either u b → p (u ++ b) = p u

theorem tells_isGlued (either : Bool) : Tells either (isGlued either) := by
  constructor
  · intro c t _ hc
    simp [isGlued, hc]
  · intro u b hu hs
    match u, hu with
    | [c], _ =>
      by_cases hc : c = '%'
      · subst hc
        have hb := hs.percent rfl
        rw [List.head?_eq_getElem?] at hb
        simp [isGlued, hb]
      · simp [isGlued, hc]
    | [c, k], _ =>
      by_cases hc : c = '%' ∧ isLetter either k = true
      · obtain ⟨rfl, hk⟩ := hc
        have hb := hs.letter k hk (List.suffix_refl _)
        rw [List.head?_eq_getElem?] at hb
        simp [isGlued, hb]
      · rw [not_and] at hc
        by_cases hp : c = '%'
        · simp [isGlued, hc hp]
        · simp [isGlued, hp]
    | _ :: _ :: _ :: _, _ => rfl

theorem tells_isFree : Tells false isFree := by
  constructor
  · intro c t hq hc
    simp [isFree, hq, hc]
  · intro u b hu hs
    match u, hu with
    | [c], _ =>
      by_cases hc : c = '%'
      · subst hc
        have hb := hs.percent rfl
        have hne : b.head? ≠ some 's' := fun he => by
          rw [he] at hb
          cases hb
        rw [List.head?_eq_getElem?] at hne
        simp [isFree, hne]
      · simp [isFree, hc]
    | [c, k], _ =>
      by_cases hc : c = '%' ∧ k = 's'
      · obtain ⟨rfl, rfl⟩ := hc
        have hb := hs.letter 's' (by decide) (List.suffix_refl _)
        rw [List.head?_eq_getElem?] at hb
        simp [isFree, hb]
      · rw [not_and] at hc
        by_cases hp : c = '%'
        · simp [isFree, hp, hc hp]
        · simp [isFree, hp]
    | _ :: _ :: _ :: _, _ => rfl

/-- **The parts of a text.** Where no marker goes across, their counts add up. -/
theorem tally_append (hp : Tells either p) (h : Seam either a b) : tally p (a ++ b) = tally p a + tally p b := by
  apply tally_append_of
  rintro u hu ⟨x, rfl⟩
  exact hp.append u b hu h.drop

theorem tally_unmarked (hp : Tells either p) (h : Unmarked a) : tally p a = 0 := by
  induction a with
  | nil => rfl
  | cons c a ih =>
    have hc := h c List.mem_cons_self
    rw [tally, hp.plain c a hc.1 hc.2, ih fun d hd => h d (List.mem_cons_of_mem _ hd)]
    rfl

/-- What holds no marker may stand in front. -/
theorem tally_append_left (hp : Tells either p) (h : Unmarked a) (b : Text) : tally p (a ++ b) = tally p b := by
  rw [tally_append hp (.of_unmarked h), tally_unmarked hp h, Nat.zero_add]

/-- What holds of fewer texts holds at fewer places. -/
theorem tally_le {q : Text → Bool} (h : ∀ t, p t = true → q t = true) (text : Text) : tally p text ≤ tally q text := by
  induction text with
  | nil => exact Nat.le_refl _
  | cons c rest ih =>
    have hc := h (c :: rest)
    rw [tally, tally]
    cases hp : p (c :: rest) with
    | false => simp; omega
    | true => simp [hc hp]; omega

theorem tally_isGlued_le (text : Text) : tally (isGlued false) text ≤ tally (isGlued true) text := by
  apply tally_le
  intro t ht
  simp only [isGlued, Bool.and_eq_true] at ht ⊢
  obtain ⟨⟨hpercent, hletter⟩, hword⟩ := ht
  refine ⟨⟨hpercent, ?_⟩, hword⟩
  cases hk : t[1]? with
  | none =>
    rw [hk] at hletter
    cases hletter
  | some k =>
    rw [hk] at hletter
    exact isLetter_of_toLower (toLower_of_isLetter hletter)

/-! ## All parameters -/

/-- A parameter is a marker with a word character directly behind it or another one. -/
theorem isParameter_eq (text : Text) : isParameter text = (isFree text || isGlued false text) := by
  have hletter : text[1]?.any (isLetter false) = decide (text[1]? = some 's') := by
    cases text[1]? with
    | none => rfl
    | some k => simp [isLetter]
  rw [isParameter, isFree, isGlued, hletter]
  cases text[2]?.any isWord <;> simp

theorem isGlued_of_isFree {text : Text} (h : isFree text = true) : isGlued false text = false := by
  simp only [isFree, Bool.or_eq_true, Bool.and_eq_true, decide_eq_true_eq, Bool.not_eq_true'] at h
  rcases h with hq | ⟨-, hw⟩
  · simp [isGlued, hq]
  · simp [isGlued, hw]

theorem tells_isParameter : Tells false isParameter := by
  constructor
  · intro c t hq hc
    rw [isParameter_eq, tells_isFree.plain c t hq hc, (tells_isGlued false).plain c t hq hc]
    rfl
  · intro u b hu hs
    rw [isParameter_eq, isParameter_eq, tells_isFree.append u b hu hs, (tells_isGlued false).append u b hu hs]

theorem tally_isParameter_eq (text : Text) :
    tally isParameter text = tally isFree text + tally (isGlued false) text := by
  induction text with
  | nil => rfl
  | cons c rest ih =>
    rw [tally, tally, tally, ih, isParameter_eq]
    cases hf : isFree (c :: rest) with
    | true =>
      simp [isGlued_of_isFree hf]
      omega
    | false =>
      cases isGlued false (c :: rest) with
      | true => simp; omega
      | false => simp

/-- The parameters of a text are its question marks and its markers. -/
theorem tally_isParameter (text : Text) : tally isParameter text = text.count '?' + count text := by
  fun_induction count text with
  | case1 rest ih =>
    rw [tally, tally, ih]
    simp [isParameter]
    omega
  | case2 c rest h ih =>
    rw [tally, ih, List.count_cons]
    by_cases hq : c = '?'
    · simp [isParameter, hq]
      omega
    · have hno : isParameter (c :: rest) = false := by
        rw [Bool.eq_false_iff]
        intro hm
        simp only [isParameter, List.head?_cons, Option.some.injEq, hq, decide_false, Bool.false_or, Bool.and_eq_true,
          decide_eq_true_eq, List.getElem?_cons_succ] at hm
        cases rest with
        | nil => simp at hm
        | cons d rest =>
          obtain ⟨rfl, hd⟩ := hm
          simp only [List.getElem?_cons_zero, Option.some.injEq] at hd
          exact h rest rfl (by rw [hd])
      simp [hno, hq]
  | case3 => rfl

end

end SqlDialect.Marker
