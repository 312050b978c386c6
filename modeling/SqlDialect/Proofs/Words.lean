import SqlDialect.Proofs.Keyword

/-!
# Words of a text

`words` lists the names, keywords and numbers of a text from left to right, those in literals and comments included.
`occurrences names` keeps the words that are in a list of names, letter case included.

* `words_append`: the words of two parts, where no word goes across.
* `occurrences_trim`: trimming takes no word away.
-/

namespace SqlDialect

/-! ## Characters of names -/

/-- A character of a name that trimming does not take away. -/
def isName (c : Char) : Bool := isWord c && !isSpace c

theorem isName_of_isWord {c : Char} (h : isWord c = false) : isName c = false := by rw [isName, h, Bool.false_and]

theorem isName_of_isSpace {c : Char} (h : isSpace c = true) : isName c = false := by
  rw [isName, h, Bool.not_true, Bool.and_false]

theorem isSpace_toLower (c : Char) : isSpace c.toLower = isSpace c := by
  simp only [isSpace, toNat_toLower]
  split
  · rw [Bool.eq_iff_iff]
    simp only [Bool.or_eq_true, Bool.and_eq_true, decide_eq_true_eq]
    omega
  · rfl

theorem isName_toLower (c : Char) : isName c.toLower = isName c := by
  rw [isName, isName, isWord_toLower, isSpace_toLower]

/-- A text that is a name up to letter case is a name. -/
theorem isName_of_lower_eq {v w : Text} (h : Text.lower v = Text.lower w) (hw : ∀ c ∈ w, isName c = true) :
    ∀ c ∈ v, isName c = true := by
  intro c hc
  have hm : c.toLower ∈ Text.lower w := h ▸ List.mem_map_of_mem hc
  obtain ⟨d, hd, he⟩ := List.mem_map.mp hm
  rw [← isName_toLower, ← he, isName_toLower, hw d hd]

/-! ## Words -/

/-- The words of a text. -/
def words (text : Text) : List Text := (text.splitOnP (!isName ·)).filter (!·.isEmpty)

/-- No name goes across from `a` to `b`. -/
def NameBreak (a b : Text) : Prop := a.getLast?.any isName = false ∨ b.head?.any isName = false

theorem NameBreak.of_wordBreak {a b : Text} (h : WordBreak a b) : NameBreak a b := by
  rcases h with h | h
  · left
    cases ha : a.getLast? with
    | none => rfl
    | some c => exact isName_of_isWord (h c ha)
  · right
    cases hb : b.head? with
    | none => rfl
    | some c => exact isName_of_isWord (h c hb)

theorem nameBreak_of_last {a : Text} (h : a.getLast?.any isWord = false) (b : Text) : NameBreak a b := by
  left
  cases ha : a.getLast? with
  | none => rfl
  | some c =>
    rw [ha] at h
    exact isName_of_isWord h

theorem nameBreak_of_head {b : Text} (h : b.head?.any isWord = false) (a : Text) : NameBreak a b := by
  right
  cases hb : b.head? with
  | none => rfl
  | some c =>
    rw [hb] at h
    exact isName_of_isWord h

section Words

variable {a b t v : Text} {c : Char}

@[simp] theorem words_nil : words [] = [] := by simp [words]

theorem words_append_cons (h : isName c = false) (a b : Text) : words (a ++ c :: b) = words a ++ words b := by
  unfold words
  rw [List.splitOnP_append_cons a b (by simpa using h), List.filter_append]

theorem words_cons (h : isName c = false) (t : Text) : words (c :: t) = words t := by
  have := words_append_cons h [] t
  rwa [words_nil, List.nil_append, List.nil_append] at this

/-- **The words of two parts.** Where no name goes across they are those of the one and of the other. -/
theorem words_append (h : NameBreak a b) : words (a ++ b) = words a ++ words b := by
  rcases h with h | h
  · rcases List.eq_nil_or_concat a with rfl | ⟨x, c, rfl⟩
    · rw [words_nil, List.nil_append, List.nil_append]
    · have hc : isName c = false := by simpa using h
      have := words_append_cons hc x []
      rw [words_nil, List.append_nil] at this
      rw [List.concat_eq_append, this, List.append_assoc]
      exact words_append_cons hc x b
  · cases b with
    | nil => rw [words_nil, List.append_nil, List.append_nil]
    | cons c b =>
      rw [words_append_cons h, words_cons h]

/-- A text without names has no words. -/
theorem words_eq_nil (h : ∀ c ∈ t, isName c = false) : words t = [] := by
  induction t with
  | nil => exact words_nil
  | cons c t ih =>
    rw [words_cons (h c List.mem_cons_self)]
    exact ih fun d hd => h d (List.mem_cons_of_mem _ hd)

/-- A name is one word. -/
theorem words_name (hne : v ≠ []) (h : ∀ c ∈ v, isName c = true) : words v = [v] := by
  rw [words, List.splitOnP_eq_singleton fun c hc => by simpa using h c hc]
  simp [hne]

end Words

/-! ## Occurrences of names -/

/-- The words of a text that are among `names`. -/
def occurrences (names : List Text) (text : Text) : List Text := (words text).filter (names.contains ·)

section Occurrences

variable {names : List Text} {a b t v : Text}

theorem occurrences_append (h : NameBreak a b) :
    occurrences names (a ++ b) = occurrences names a ++ occurrences names b := by
  rw [occurrences, words_append h, List.filter_append]
  rfl

@[simp] theorem occurrences_nil : occurrences names [] = [] := by simp [occurrences]

theorem occurrences_eq_nil (h : ∀ c ∈ t, isName c = false) : occurrences names t = [] := by
  rw [occurrences, words_eq_nil h]
  rfl

/-- A character of no name between two texts. -/
theorem occurrences_append_cons {c : Char} (h : isName c = false) (a b : Text) :
    occurrences names (a ++ c :: b) = occurrences names a ++ occurrences names b := by
  rw [occurrences, words_append_cons h, List.filter_append]
  rfl

/-- What holds no name may stand in front. -/
theorem occurrences_append_left (h : ∀ c ∈ a, isName c = false) (b : Text) :
    occurrences names (a ++ b) = occurrences names b := by
  have hbreak : NameBreak a b := by
    left
    cases hl : a.getLast? with
    | none => rfl
    | some c => exact h c (List.mem_of_getLast? hl)
  rw [occurrences_append hbreak, occurrences_eq_nil h, List.nil_append]

/-- What holds no name may stand behind. -/
theorem occurrences_append_right (h : ∀ c ∈ b, isName c = false) (a : Text) :
    occurrences names (a ++ b) = occurrences names a := by
  have hbreak : NameBreak a b := by
    right
    cases hl : b.head? with
    | none => rfl
    | some c => exact h c (List.mem_of_head? hl)
  rw [occurrences_append hbreak, occurrences_eq_nil h, List.append_nil]

theorem occurrences_name (h : ∀ c ∈ v, isName c = true) (hv : v ∉ names) : occurrences names v = [] := by
  by_cases hne : v = []
  · rw [hne, occurrences_nil]
  · rw [occurrences, words_name hne h, List.filter_cons_of_neg (by simpa using hv)]
    rfl

/-- Trimming takes no word away. -/
theorem occurrences_trim (t : Text) : occurrences names (Text.trim t) = occurrences names t := by
  obtain ⟨s₁, h₁, hs₁⟩ := Text.trimStart_decomp t
  obtain ⟨s₂, h₂, hs₂⟩ := Text.trimEnd_decomp (Text.trimStart t)
  have hend : occurrences names (Text.trimStart t) = occurrences names (Text.trim t) := by
    change Text.trimStart t = Text.trim t ++ s₂ at h₂
    conv => lhs; rw [h₂]
    exact occurrences_append_right (fun c hc => isName_of_isSpace (hs₂ c hc)) _
  conv => rhs; rw [h₁]
  rw [occurrences_append_left fun c hc => isName_of_isSpace (hs₁ c hc), hend]

end Occurrences

end SqlDialect
