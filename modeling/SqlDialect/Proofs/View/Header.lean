import SqlDialect.View.Header
import SqlDialect.Proofs.Keyword

/-!
# How view headers are written

A header may be written in many ways: keywords in any letter case, gaps of any length, options in any order and number.
`Header.Written` lists them without the reader. Each reader takes what is written as long as it can, so it stops where
the next token cannot be continued.

* `Header.read_eq_ok_iff`: the texts in which a header is read are the ones that it is written as.
* `readHeader_written`: so a definition becomes the plain header and its body, and a second time nothing changes.
-/

namespace SqlDialect.View

/-! ## Tokens -/

/-- A gap between two tokens. -/
def IsGap (t : Text) : Prop := t ≠ [] ∧ ∀ c ∈ t, isGap c = true

/-- A keyword in some letter case with a gap behind it. -/
def WordWritten (word t : Text) : Prop := ∃ v g, t = v ++ g ∧ Text.lower v = Text.lower word ∧ IsGap g

/-- A keyword of word characters with its first letter. -/
structure Spelled (word : Text) (c : Char) : Prop where
  initial : (Text.lower word).head? = some c
  isWord : ∀ d ∈ word, isWord d = true

/-- The keywords of a header with their first letters. -/
def keywords : List (Text × Char) :=
  [(createWord, 'c'), (orWord, 'o'), (replaceWord, 'r'), (algorithmWord, 'a'), (definerWord, 'd'), (sqlWord, 's'),
    (securityWord, 's'), (invokerWord, 'i'), (viewWord, 'v')]

section Tokens

variable {word text rest : Text}

theorem spelled_of_mem {c : Char} (h : (word, c) ∈ keywords) : Spelled word c := by
  have hall : ∀ p ∈ keywords, (Text.lower p.1).head? = some p.2 ∧ ∀ d ∈ p.1, isWord d = true := by decide +kernel
  exact ⟨(hall _ h).1, (hall _ h).2⟩

theorem Spelled.ne_nil {c : Char} (h : Spelled word c) : word ≠ [] := fun e => by
  have hnone := h.initial
  rw [e] at hnone
  cases hnone

theorem isSpace_of_isGap {c : Char} (h : isGap c = true) : isSpace c = true := by
  simp only [isGap, Bool.or_eq_true, decide_eq_true_eq] at h
  rcases h with ((rfl | rfl) | rfl) | rfl <;> decide

theorem isGap_of_isWord {c : Char} (h : isWord c = true) : isGap c = false := by
  rw [Bool.eq_false_iff]
  intro hg
  simp only [isGap, Bool.or_eq_true, decide_eq_true_eq] at hg
  rcases hg with ((rfl | rfl) | rfl) | rfl <;> exact absurd h (by decide)

/-- The longest beginning of a text with a property. -/
theorem span_eq_iff {p : Char → Bool} {x : Text} :
    text.takeWhile p = x ∧ text.dropWhile p = rest ↔
      text = x ++ rest ∧ (∀ c ∈ x, p c = true) ∧ rest.head?.any p = false := by
  constructor
  · rintro ⟨rfl, rfl⟩
    refine ⟨List.takeWhile_append_dropWhile.symm, List.all_eq_true.mp List.all_takeWhile, ?_⟩
    have := List.head?_dropWhile_not p text
    cases h : (text.dropWhile p).head? with
    | none => rfl
    | some c => simpa [h] using this
  · rintro ⟨rfl, hx, hr⟩
    refine ⟨takeWhile_whole hx hr, ?_⟩
    have hself := @List.dropWhile_append_of_pos _ p x rest hx
    rw [hself]
    cases rest with
    | nil => rfl
    | cons c rest => exact List.dropWhile_cons_of_neg (by simpa using hr)

theorem skip?_iff : skip? word text = some rest ↔ ∃ v, text = v ++ rest ∧ Text.lower v = Text.lower word := by
  constructor
  · intro h
    obtain ⟨hs, rfl⟩ := skip?_eq_some h
    obtain ⟨v, u, rfl, hv⟩ := starts_iff.mp hs
    exact ⟨v, by rw [← length_eq_of_lower_eq hv, List.drop_left], hv⟩
  · rintro ⟨v, rfl, hv⟩
    rw [skip?, if_pos (starts_iff.mpr ⟨v, rest, rfl, hv⟩), ← length_eq_of_lower_eq hv, List.drop_left]

theorem head?_any_of_ne_nil {p : Char → Bool} {x : Text} (hne : x ≠ []) (hx : ∀ c ∈ x, p c = true) (t : Text) :
    (x ++ t).head?.any p = true := by
  obtain ⟨c, x, rfl⟩ := List.exists_cons_of_ne_nil hne
  exact hx c List.mem_cons_self

theorem skipGap?_iff :
    skipGap? text = some rest ↔ ∃ g, text = g ++ rest ∧ IsGap g ∧ rest.head?.any isGap = false := by
  unfold skipGap?
  constructor
  · intro h
    split at h
    · next hhead =>
      obtain ⟨he, hg, hr⟩ := span_eq_iff.mp ⟨rfl, Option.some.inj h⟩
      refine ⟨_, he, ⟨fun hnil => ?_, hg⟩, hr⟩
      rw [hnil, List.nil_append] at he
      rw [he, hr] at hhead
      cases hhead
    · cases h
  · rintro ⟨g, rfl, ⟨hne, hg⟩, hr⟩
    rw [if_pos (head?_any_of_ne_nil hne hg rest), (span_eq_iff.mpr ⟨rfl, hg, hr⟩).2]

theorem skipWord?_iff :
    skipWord? word text = some rest ↔ ∃ t, text = t ++ rest ∧ WordWritten word t ∧ rest.head?.any isGap = false := by
  rw [skipWord?, Option.bind_eq_some_iff]
  constructor
  · rintro ⟨u, hu, hg⟩
    obtain ⟨v, rfl, hv⟩ := skip?_iff.mp hu
    obtain ⟨g, rfl, hgap, hr⟩ := skipGap?_iff.mp hg
    exact ⟨v ++ g, (List.append_assoc ..).symm, ⟨v, g, rfl, hv, hgap⟩, hr⟩
  · rintro ⟨_, rfl, ⟨v, g, rfl, hv, hgap⟩, hr⟩
    exact ⟨g ++ rest, skip?_iff.mpr ⟨v, List.append_assoc .., hv⟩, skipGap?_iff.mpr ⟨g, rfl, hgap, hr⟩⟩

theorem skipEquals?_iff :
    skipEquals? text = some rest ↔ ∃ g g', text = g ++ '=' :: (g' ++ rest) ∧ (∀ c ∈ g, isGap c = true) ∧
      (∀ c ∈ g', isGap c = true) ∧ rest.head?.any isGap = false := by
  unfold skipEquals?
  constructor
  · intro h
    split at h
    · next behind hd =>
      obtain ⟨he, hg, -⟩ := span_eq_iff.mp ⟨rfl, hd⟩
      obtain ⟨he', hg', hr⟩ := span_eq_iff.mp ⟨rfl, Option.some.inj h⟩
      exact ⟨_, _, he.trans (by rw [← he']), hg, hg', hr⟩
    · cases h
  · rintro ⟨g, g', rfl, hg, hg', hr⟩
    rw [(span_eq_iff.mpr ⟨rfl, hg, rfl⟩).2]
    exact congrArg some (span_eq_iff.mpr ⟨rfl, hg', hr⟩).2

theorem takeSome?_iff {p : Char → Bool} {x : Text} :
    takeSome? p text = some (x, rest) ↔
      text = x ++ rest ∧ x ≠ [] ∧ (∀ c ∈ x, p c = true) ∧ rest.head?.any p = false := by
  unfold takeSome?
  constructor
  · intro h
    split at h
    · next hhead =>
      simp only [Option.some.injEq, Prod.mk.injEq] at h
      obtain ⟨he, hx, hr⟩ := span_eq_iff.mp h
      refine ⟨he, fun hnil => ?_, hx, hr⟩
      rw [he, hnil, List.nil_append, hr] at hhead
      cases hhead
    · cases h
  · rintro ⟨rfl, hne, hx, hr⟩
    obtain ⟨htake, hdrop⟩ := span_eq_iff.mpr ⟨rfl, hx, hr⟩
    rw [if_pos (head?_any_of_ne_nil hne hx rest), htake, hdrop]

end Tokens

/-! ## Options -/

/-- The texts that a keyword with a value of some class of characters is written as. -/
def ValueWritten (word : Text) (p : Char → Bool) (value t : Text) : Prop :=
  ∃ w g g', t = w ++ (g ++ '=' :: (g' ++ value)) ∧ Text.lower w = Text.lower word ∧ (∀ c ∈ g, isGap c = true) ∧
    (∀ c ∈ g', isGap c = true) ∧ value ≠ [] ∧ ∀ c ∈ value, p c = true

/-- The texts that an option is written as. -/
inductive HeaderOption.Written : HeaderOption → Text → Prop where
  | algorithm {name t : Text} (h : ValueWritten algorithmWord (fun c => c.isAlphanum || c = '_') name t) :
      Written (.algorithm name) t
  | definer {account t : Text} (h : ValueWritten definerWord (fun c => !isSpace c) account t) :
      Written (.definer account) t
  | security {runAs : Security} {t t' w : Text} (h : WordWritten sqlWord t) (h' : WordWritten securityWord t')
      (hw : Text.lower w = Text.lower runAs.name.toList) : Written (.security runAs) (t ++ (t' ++ w))

/-- The texts that options are written as, each with a gap behind it. -/
inductive OptionsWritten : List HeaderOption → Text → Prop where
  | nil : OptionsWritten [] []
  | cons {o : HeaderOption} {os : List HeaderOption} {v g t : Text} (h : o.Written v) (hg : IsGap g)
      (hs : OptionsWritten os t) : OptionsWritten (o :: os) (v ++ (g ++ t))

/-- The keyword that an option starts with. -/
def HeaderOption.word : HeaderOption → Text
  | algorithm _ => algorithmWord
  | definer _ => definerWord
  | security _ => sqlWord

section Options

variable {text rest v g t : Text} {o : HeaderOption} {os : List HeaderOption}

/-- A keyword is not met where another with a different first letter stands. -/
theorem skip?_eq_none {word word' : Text} {c c' : Char} (hv : Text.lower v = Text.lower word') (h : Spelled word c)
    (h' : Spelled word' c') (hne : c ≠ c') : skip? word (v ++ t) = none := by
  rw [Option.eq_none_iff_forall_ne_some]
  intro rest hs
  obtain ⟨u, he, hu⟩ := skip?_iff.mp hs
  have hhead : ∀ {x w y : Text} {d : Char}, Text.lower x = Text.lower w → (Text.lower w).head? = some d →
      (Text.lower (x ++ y)).head? = some d := fun hx hw => by
    rw [Text.lower, List.map_append, ← Text.lower, hx, List.head?_append, hw]
    rfl
  have hmet := hhead (y := rest) hu h.initial
  rw [← he, hhead (y := t) hv h'.initial, Option.some.injEq] at hmet
  exact hne hmet.symm

/-- An option starts with its keyword. -/
theorem HeaderOption.Written.starts (h : o.Written v) : ∃ w u, v = w ++ u ∧ Text.lower w = Text.lower o.word := by
  cases h with
  | algorithm h | definer h =>
    obtain ⟨w, g, g', rfl, hw, -⟩ := h
    exact ⟨w, _, rfl, hw⟩
  | security h h' hw =>
    obtain ⟨w, g, rfl, hw, -⟩ := h
    exact ⟨w, _, List.append_assoc .., hw⟩

/-- The first letter of the keyword that an option starts with. -/
def HeaderOption.initial : HeaderOption → Char
  | algorithm _ => 'a'
  | definer _ => 'd'
  | security _ => 's'

theorem spelled_word (o : HeaderOption) : Spelled o.word o.initial := by
  cases o <;> exact spelled_of_mem (by simp [keywords, HeaderOption.word, HeaderOption.initial])

/-- A keyword is met in front of an option only if it is the one of the option, by their first letters. -/
theorem skip?_option {word : Text} {c : Char} (hw : Spelled word c) (h : o.Written v) (hne : c ≠ o.initial) (t : Text) :
    skip? word (v ++ t) = none := by
  obtain ⟨w, u, rfl, hv⟩ := h.starts
  rw [List.append_assoc]
  exact skip?_eq_none hv hw (spelled_word o) hne

/-- A value is read as long as its characters are of the class. -/
theorem value_iff {word value : Text} {p : Char → Bool} (hp : ∀ c, p c = true → isGap c = false) :
    (∃ u, skip? word text = some u ∧ ∃ u', skipEquals? u = some u' ∧ takeSome? p u' = some (value, rest)) ↔
      ∃ t, text = t ++ rest ∧ ValueWritten word p value t ∧ rest.head?.any p = false := by
  constructor
  · rintro ⟨u, hu, u', hu', hx⟩
    obtain ⟨w, rfl, hw⟩ := skip?_iff.mp hu
    obtain ⟨g, g', rfl, hg, hg', -⟩ := skipEquals?_iff.mp hu'
    obtain ⟨rfl, hne, hx, hr⟩ := takeSome?_iff.mp hx
    exact ⟨w ++ (g ++ '=' :: (g' ++ value)), by simp, ⟨w, g, g', rfl, hw, hg, hg', hne, hx⟩, hr⟩
  · rintro ⟨_, rfl, ⟨w, g, g', rfl, hw, hg, hg', hne, hx⟩, hr⟩
    refine ⟨g ++ '=' :: (g' ++ (value ++ rest)), skip?_iff.mpr ⟨w, by simp, hw⟩, value ++ rest,
      skipEquals?_iff.mpr ⟨g, g', rfl, hg, hg', ?_⟩, takeSome?_iff.mpr ⟨rfl, hne, hx, hr⟩⟩
    obtain ⟨c, x, rfl⟩ := List.exists_cons_of_ne_nil hne
    exact hp c (hx c List.mem_cons_self)

theorem readAlgorithm?_iff : readAlgorithm? text = some (o, rest) ↔
    ∃ name, o = .algorithm name ∧ ∃ t, text = t ++ rest ∧
      ValueWritten algorithmWord (fun c => c.isAlphanum || c = '_') name t ∧
      rest.head?.any (fun c => c.isAlphanum || c = '_') = false := by
  have hp : ∀ c : Char, (c.isAlphanum || c = '_') = true → isGap c = false := fun c hc =>
    isGap_of_isWord (by
      simp only [Bool.or_eq_true] at hc
      simp only [isWord, Bool.or_eq_true]
      exact .inl (.inl hc))
  simp only [← value_iff hp, readAlgorithm?, Option.bind_eq_bind, Option.bind_eq_some_iff, Option.pure_def]
  constructor
  · rintro ⟨u, hu, u', hu', ⟨name, rest'⟩, hx, he⟩
    cases he
    exact ⟨name, rfl, u, hu, u', hu', hx⟩
  · rintro ⟨name, rfl, u, hu, u', hu', hx⟩
    exact ⟨u, hu, u', hu', (name, rest), hx, rfl⟩

theorem readDefiner?_iff : readDefiner? text = some (o, rest) ↔
    ∃ account, o = .definer account ∧ ∃ t, text = t ++ rest ∧
      ValueWritten definerWord (fun c => !isSpace c) account t ∧ rest.head?.any (fun c => !isSpace c) = false := by
  have hp : ∀ c : Char, (!isSpace c) = true → isGap c = false := fun c hc => by
    rw [Bool.eq_false_iff]
    intro hg
    simp [isSpace_of_isGap hg] at hc
  simp only [← value_iff hp, readDefiner?, Option.bind_eq_bind, Option.bind_eq_some_iff, Option.pure_def]
  constructor
  · rintro ⟨u, hu, u', hu', ⟨account, rest'⟩, hx, he⟩
    cases he
    exact ⟨account, rfl, u, hu, u', hu', hx⟩
  · rintro ⟨account, rfl, u, hu, u', hu', hx⟩
    exact ⟨u, hu, u', hu', (account, rest), hx, rfl⟩

theorem name_ne_nil (s : Security) : s.name.toList ≠ [] := by cases s <;> decide

/-- No gap starts where a keyword stands. -/
theorem not_gap_of_word {word : Text} (hv : Text.lower v = Text.lower word) (hne : word ≠ [])
    (hw : ∀ c ∈ word, isWord c = true) (t : Text) : (v ++ t).head?.any isGap = false := by
  cases v with
  | nil => exact absurd (List.map_eq_nil_iff.mp hv.symm) hne
  | cons c v => exact isGap_of_isWord (isWord_of_lower_eq hv hw c List.mem_cons_self)

theorem WordWritten.head? {word : Text} {c : Char} (h : WordWritten word t) (hw : Spelled word c) (rest : Text) :
    (t ++ rest).head?.any isGap = false := by
  obtain ⟨v, g, rfl, hv, -⟩ := h
  rw [List.append_assoc]
  exact not_gap_of_word hv hw.ne_nil hw.isWord _

theorem lower_securityNames : Text.lower definerWord = Text.lower Security.definer.name.toList ∧
    Text.lower invokerWord = Text.lower Security.invoker.name.toList := by
  decide +kernel

theorem readSecurity?_iff : readSecurity? text = some (o, rest) ↔
    ∃ runAs, o = .security runAs ∧ ∃ t t' w, text = t ++ (t' ++ (w ++ rest)) ∧ WordWritten sqlWord t ∧
      WordWritten securityWord t' ∧ Text.lower w = Text.lower runAs.name.toList := by
  obtain ⟨hdefiner, hinvoker⟩ := lower_securityNames
  have hsecurity : Spelled securityWord 's' := spelled_of_mem (by simp [keywords])
  simp only [readSecurity?, Option.bind_eq_bind, Option.bind_eq_some_iff, Option.pure_def]
  constructor
  · rintro ⟨u, hu, u', hu', hmatch⟩
    obtain ⟨t, rfl, ht, -⟩ := skipWord?_iff.mp hu
    obtain ⟨t', rfl, ht', -⟩ := skipWord?_iff.mp hu'
    split at hmatch
    · next behind hs =>
      cases hmatch
      obtain ⟨w, rfl, hw⟩ := skip?_iff.mp hs
      exact ⟨.definer, rfl, t, t', w, rfl, ht, ht', hw.trans hdefiner⟩
    · obtain ⟨behind, hs, he⟩ := Option.bind_eq_some_iff.mp hmatch
      cases he
      obtain ⟨w, rfl, hw⟩ := skip?_iff.mp hs
      exact ⟨.invoker, rfl, t, t', w, rfl, ht, ht', hw.trans hinvoker⟩
  · rintro ⟨runAs, rfl, t, t', w, rfl, ht, ht', hw⟩
    have hgap : (w ++ rest).head?.any isGap = false :=
      not_gap_of_word hw (name_ne_nil runAs) (by cases runAs <;> decide) rest
    have hgap' := ht'.head? hsecurity (w ++ rest)
    refine ⟨t' ++ (w ++ rest), skipWord?_iff.mpr ⟨t, rfl, ht, hgap'⟩, w ++ rest,
      skipWord?_iff.mpr ⟨t', rfl, ht', hgap⟩, ?_⟩
    cases runAs with
    | definer => rw [skip?_iff.mpr ⟨w, rfl, hw.trans hdefiner.symm⟩]
    | invoker =>
      have hdefiner : skip? definerWord (w ++ rest) = none :=
        skip?_eq_none (hw.trans hinvoker.symm) (spelled_of_mem (by simp [keywords]) : Spelled definerWord 'd')
          (spelled_of_mem (by simp [keywords]) : Spelled invokerWord 'i') (by decide)
      rw [hdefiner, skip?_iff.mpr ⟨w, rfl, hw.trans hinvoker.symm⟩]
      rfl

/-- **An option.** The keywords of the three kinds start with different letters, so only one kind is read, and an
option ends where the gap behind it starts. -/
theorem readOption?_iff : readOption? text = some (o, rest) ↔
    ∃ v g, text = v ++ (g ++ rest) ∧ o.Written v ∧ IsGap g ∧ rest.head?.any isGap = false := by
  simp only [readOption?, Option.orElse_eq_orElse, Option.orElse_eq_or, Option.bind_eq_bind, Option.bind_eq_some_iff,
    Option.pure_def, Prod.exists, Option.some.injEq, Prod.mk.injEq, Option.or_eq_some_iff]
  constructor
  · rintro ⟨o', u, hu, rest', hrest, rfl, rfl⟩
    obtain ⟨g, rfl, hg, hr⟩ := skipGap?_iff.mp hrest
    rcases hu with h | ⟨-, h | ⟨-, h⟩⟩
    · obtain ⟨name, rfl, t, rfl, ht, -⟩ := readAlgorithm?_iff.mp h
      exact ⟨t, g, rfl, .algorithm ht, hg, hr⟩
    · obtain ⟨account, rfl, t, rfl, ht, -⟩ := readDefiner?_iff.mp h
      exact ⟨t, g, rfl, .definer ht, hg, hr⟩
    · obtain ⟨runAs, rfl, t, t', w, rfl, ht, ht', hw⟩ := readSecurity?_iff.mp h
      exact ⟨t ++ (t' ++ w), g, by simp, .security ht ht' hw, hg, hr⟩
  · rintro ⟨v, g, rfl, hv, hg, hr⟩
    refine ⟨o, g ++ rest, ?_, rest, skipGap?_iff.mpr ⟨g, rfl, hg, hr⟩, rfl, rfl⟩
    have halgorithm : (∀ name, o ≠ .algorithm name) → readAlgorithm? (v ++ (g ++ rest)) = none := fun hno => by
      have hinitial : 'a' ≠ o.initial := by
        cases o with
        | algorithm name => exact absurd rfl (hno name)
        | definer account | security runAs => simp [HeaderOption.initial]
      have hskip :=
        skip?_option (spelled_of_mem (by simp [keywords]) : Spelled algorithmWord 'a') hv hinitial (g ++ rest)
      rw [readAlgorithm?, hskip]
      rfl
    have hdefiner : (∀ account, o ≠ .definer account) → readDefiner? (v ++ (g ++ rest)) = none := fun hno => by
      have hinitial : 'd' ≠ o.initial := by
        cases o with
        | definer account => exact absurd rfl (hno account)
        | algorithm name | security runAs => simp [HeaderOption.initial]
      have hskip :=
        skip?_option (spelled_of_mem (by simp [keywords]) : Spelled definerWord 'd') hv hinitial (g ++ rest)
      rw [readDefiner?, hskip]
      rfl
    obtain ⟨c, x, rfl⟩ := List.exists_cons_of_ne_nil hg.1
    have hc := hg.2 c List.mem_cons_self
    cases hv with
    | algorithm h =>
      refine .inl (readAlgorithm?_iff.mpr ⟨_, rfl, v, rfl, h, ?_⟩)
      rw [List.cons_append, List.head?_cons, Option.any_some, Bool.eq_false_iff]
      intro hname
      rw [isGap_of_isWord (by simp only [isWord, Bool.or_eq_true] at hname ⊢; exact .inl (.inl hname))] at hc
      cases hc
    | definer h =>
      refine .inr ⟨halgorithm (by simp), .inl (readDefiner?_iff.mpr ⟨_, rfl, v, rfl, h, ?_⟩)⟩
      simp [isSpace_of_isGap hc]
    | security h h' hw =>
      exact .inr ⟨halgorithm (by simp), .inr ⟨hdefiner (by simp),
        readSecurity?_iff.mpr ⟨_, rfl, _, _, _, by simp, h, h', hw⟩⟩⟩

end Options

/-! ## The header -/

/-- The texts that OR REPLACE is written as, if it is. -/
inductive ReplaceWritten : Bool → Text → Prop where
  | absent : ReplaceWritten false []
  | present {t t' : Text} (h : WordWritten orWord t) (h' : WordWritten replaceWord t') : ReplaceWritten true (t ++ t')

/-- The texts that a header is written as, with the body behind it. -/
inductive Header.Written (h : Header) : Text → Prop where
  | mk {t r os t' : Text} (hcreate : WordWritten createWord t) (hreplace : ReplaceWritten h.orReplace r)
      (hoptions : OptionsWritten h.options os) (hview : WordWritten viewWord t')
      (hbody : h.body.head?.any isGap = false) : Written h (t ++ (r ++ (os ++ (t' ++ h.body))))

section Header

variable {text rest t : Text} {os : List HeaderOption} {h : Header}

/-- Options are followed by an option or by what follows them all, so no gap starts behind the gap of one. -/
theorem OptionsWritten.head? (hs : OptionsWritten os t) (hr : rest.head?.any isGap = false) :
    (t ++ rest).head?.any isGap = false := by
  cases hs with
  | nil => exact hr
  | @cons o os v g t hv =>
    obtain ⟨w, u, rfl, hw⟩ := hv.starts
    rw [List.append_assoc, List.append_assoc]
    exact not_gap_of_word hw (spelled_word o).ne_nil (spelled_word o).isWord _

/-- Written options are read one by one, up to what is no option. -/
theorem readOptions_of_written (hs : OptionsWritten os t) (hr : rest.head?.any isGap = false)
    (hstop : readOption? rest = none) : readOptions (t ++ rest) = (os, rest) := by
  induction hs with
  | nil => rw [List.nil_append, readOptions, hstop]
  | @cons o os v g t hv hg hs ih =>
    have hread : readOption? (v ++ (g ++ t) ++ rest) = some (o, t ++ rest) :=
      readOption?_iff.mpr ⟨v, g, by simp, hv, hg, hs.head? hr⟩
    have hlt : (t ++ rest).length < (v ++ (g ++ t) ++ rest).length := by
      have := List.length_pos_iff.mpr hg.1
      simp only [List.length_append]
      omega
    rw [readOptions, hread]
    simp only [if_pos hlt, ih]

theorem written_of_readOptions (h : readOptions text = (os, rest)) : ∃ t, text = t ++ rest ∧ OptionsWritten os t := by
  fun_induction readOptions text generalizing os with
  | case1 text hnone =>
    cases h
    exact ⟨[], rfl, .nil⟩
  | case2 text o behind hread hlt os' behind' hrest ih =>
    cases h
    obtain ⟨v, g, rfl, hv, hg, -⟩ := readOption?_iff.mp hread
    obtain ⟨t, rfl, ht⟩ := ih hrest
    exact ⟨v ++ (g ++ t), by simp, .cons hv hg ht⟩
  | case3 text o behind hread hlt =>
    cases h
    exact ⟨[], rfl, .nil⟩

theorem expectWord_iff {word : Text} :
    expectWord word text = .ok rest ↔ ∃ t, text = t ++ rest ∧ WordWritten word t ∧ rest.head?.any isGap = false := by
  rw [← skipWord?_iff, skipWord?, expectWord]
  cases skip? word text with
  | none => simp
  | some u =>
    simp only [Option.bind_some]
    cases skipGap? u <;> simp

theorem skipOrReplace?_iff : skipOrReplace? text = some rest ↔
    ∃ r, text = r ++ rest ∧ ReplaceWritten true r ∧ rest.head?.any isGap = false := by
  rw [skipOrReplace?, Option.bind_eq_some_iff]
  constructor
  · rintro ⟨u, hu, hu'⟩
    obtain ⟨t, rfl, ht, -⟩ := skipWord?_iff.mp hu
    obtain ⟨t', rfl, ht', hr⟩ := skipWord?_iff.mp hu'
    exact ⟨t ++ t', by simp, .present ht ht', hr⟩
  · rintro ⟨r, rfl, h, hr⟩
    cases h with
    | @present t t' ht ht' =>
      have hgap := ht'.head? (spelled_of_mem (by simp [keywords]) : Spelled replaceWord 'r') rest
      exact ⟨t' ++ rest, skipWord?_iff.mpr ⟨t, List.append_assoc .., ht, hgap⟩, skipWord?_iff.mpr ⟨t', rfl, ht', hr⟩⟩

theorem spelled_view : Spelled viewWord 'v' := spelled_of_mem (by simp [keywords])

/-- No option and no OR REPLACE is read where the keyword VIEW stands. -/
theorem readOption?_view (hv : WordWritten viewWord t) (rest : Text) : readOption? (t ++ rest) = none := by
  rw [Option.eq_none_iff_forall_ne_some]
  rintro ⟨o, behind⟩ h
  obtain ⟨v, g, he, ho, -⟩ := readOption?_iff.mp h
  obtain ⟨w, g', rfl, hw, -⟩ := hv
  have hview : skip? viewWord (v ++ (g ++ behind)) = none :=
    skip?_option spelled_view ho (by cases o <;> simp [HeaderOption.initial]) _
  rw [← he, List.append_assoc, skip?_iff.mpr ⟨w, rfl, hw⟩] at hview
  cases hview

/-- Where another keyword stands, no OR REPLACE is read. -/
theorem skipOrReplace?_of_word {w word : Text} {c : Char} (hw : Text.lower w = Text.lower word) (h : Spelled word c)
    (hc : 'o' ≠ c) (u : Text) : skipOrReplace? (w ++ u) = none := by
  have hor : Spelled orWord 'o' := spelled_of_mem (by simp [keywords])
  rw [skipOrReplace?, skipWord?, skip?_eq_none hw hor h hc]
  rfl

theorem HeaderOption.Written.skipOrReplace? {o : HeaderOption} {v : Text} (h : o.Written v) (u : Text) :
    skipOrReplace? (v ++ u) = none := by
  obtain ⟨w, u', rfl, hw⟩ := h.starts
  rw [List.append_assoc]
  exact skipOrReplace?_of_word hw (spelled_word o) (by cases o <;> simp [HeaderOption.initial]) _

theorem WordWritten.skipOrReplace? {c : Char} {word : Text} (hv : WordWritten word t) (h : Spelled word c) (hc : 'o' ≠ c)
    (u : Text) : skipOrReplace? (t ++ u) = none := by
  obtain ⟨w, g, rfl, hw, -⟩ := hv
  rw [List.append_assoc]
  exact skipOrReplace?_of_word hw h hc _

theorem skipOrReplace?_none {os : List HeaderOption} (hs : OptionsWritten os t) {t' : Text}
    (hv : WordWritten viewWord t') (body : Text) : skipOrReplace? (t ++ (t' ++ body)) = none := by
  cases hs with
  | nil => exact hv.skipOrReplace? spelled_view (by decide) body
  | cons ho =>
    rw [List.append_assoc]
    exact ho.skipOrReplace? _

/-- What stands in front of the options is OR REPLACE, if it is read. -/
theorem replaceWritten (text : Text) :
    ∃ r, text = r ++ (skipOrReplace? text).getD text ∧ ReplaceWritten (skipOrReplace? text).isSome r := by
  cases h : skipOrReplace? text with
  | none => exact ⟨[], rfl, .absent⟩
  | some rest =>
    obtain ⟨r, he, hr, -⟩ := skipOrReplace?_iff.mp h
    exact ⟨r, he, hr⟩

/-- What is read from the options of a header on. -/
theorem Header.read_options {replaced : Bool} {r s : Text} (hcreate : WordWritten createWord t)
    (hreplace : ReplaceWritten replaced r) (hs : s.head?.any isGap = false) (hnone : skipOrReplace? s = none) :
    Header.read (t ++ (r ++ s)) =
      (expectWord viewWord (readOptions s).2).map fun body => ⟨replaced, (readOptions s).1, body⟩ := by
  have hstart : expectWord createWord (t ++ (r ++ s)) = .ok (r ++ s) := by
    refine expectWord_iff.mpr ⟨t, rfl, hcreate, ?_⟩
    cases hreplace with
    | absent => exact hs
    | present h h' =>
      rw [List.append_assoc]
      exact h.head? (spelled_of_mem (by simp [keywords]) : Spelled orWord 'o') _
  have hrep : (skipOrReplace? (r ++ s)).getD (r ++ s) = s ∧ (skipOrReplace? (r ++ s)).isSome = replaced := by
    cases hreplace with
    | absent =>
      rw [List.nil_append, hnone]
      exact ⟨rfl, rfl⟩
    | present h h' =>
      rw [skipOrReplace?_iff.mpr ⟨_, rfl, .present h h', hs⟩]
      exact ⟨rfl, rfl⟩
  simp only [Header.read, hstart, bind, Except.bind, hrep.1, hrep.2]
  cases expectWord viewWord (readOptions s).2 <;> rfl

/-- **The header.** The texts in which a header is read are the ones that it is written as. -/
theorem Header.read_eq_ok_iff : Header.read text = .ok h ↔ h.Written text := by
  constructor
  · intro hread
    simp only [Header.read, bind, Except.bind] at hread
    split at hread
    · cases hread
    · next u hu =>
      obtain ⟨t, rfl, ht, -⟩ := expectWord_iff.mp hu
      obtain ⟨r, hur, hr⟩ := replaceWritten u
      generalize hread' : readOptions ((skipOrReplace? u).getD u) = options at hread
      obtain ⟨os, rest⟩ := options
      obtain ⟨t', hos, hos'⟩ := written_of_readOptions hread'
      split at hread
      · cases hread
      · next body hbody =>
        cases hread
        obtain ⟨t'', rfl, hview, hgap⟩ := expectWord_iff.mp hbody
        have htext : t ++ u = t ++ (r ++ (t' ++ (t'' ++ body))) := by rw [← hos, ← hur]
        rw [htext]
        exact .mk ht hr hos' hview hgap
  · rintro ⟨hcreate, hreplace, hoptions, hview, hbody⟩
    rename_i t r os t'
    obtain ⟨replace, options, body⟩ := h
    have hhead := hview.head? spelled_view body
    have hos := readOptions_of_written hoptions hhead (readOption?_view hview body)
    have hbody' : expectWord viewWord (t' ++ body) = .ok body := expectWord_iff.mpr ⟨t', rfl, hview, hbody⟩
    have hnone := skipOrReplace?_none hoptions hview body
    rw [Header.read_options hcreate hreplace (hoptions.head? hhead) hnone, hos, hbody']
    rfl

/-- No space stands in front of the first keyword of a header. -/
theorem trimStart_create (hcreate : WordWritten createWord t) (u : Text) : Text.trimStart (t ++ u) = t ++ u := by
  obtain ⟨v, g, rfl, hv, -⟩ := hcreate
  have hcreate : Spelled createWord 'c' := spelled_of_mem (by simp [keywords])
  have hhead : (Text.lower v).head? = some 'c' := hv ▸ hcreate.initial
  cases v with
  | nil => cases hhead
  | cons c v =>
    have hc : c.toLower.toNat = 99 := congrArg Char.toNat (Option.some.inj hhead)
    rw [toNat_toLower] at hc
    have hspace : isSpace c = false := by
      rw [Bool.eq_false_iff]
      intro h
      simp only [isSpace, Bool.or_eq_true, Bool.and_eq_true, decide_eq_true_eq] at h
      split at hc <;> omega
    exact List.dropWhile_cons_of_neg (by simp [hspace])

theorem Header.Written.trimStart_eq (hw : h.Written text) : Text.trimStart text = text := by
  cases hw with
  | mk hcreate => exact trimStart_create hcreate _

theorem Header.Written.head?_body (hw : h.Written text) : h.body.head?.any isGap = false := by
  cases hw with
  | mk _ _ _ _ hbody => exact hbody

/-- A definition with a written header becomes the plain header and its body. -/
theorem normalizeHeader_written (hw : h.Written text) : normalizeHeader text = plainHeader ++ h.body := by
  rw [normalizeHeader, hw.trimStart_eq, Header.read_eq_ok_iff.mpr hw]

/-- The plain header is a header without options. -/
theorem plainHeader_written {body : Text} (hb : body.head?.any isGap = false) :
    (Header.mk false [] body).Written (plainHeader ++ body) := by
  have hsplit : plainHeader = "CREATE ".toList ++ "VIEW ".toList ∧ Text.lower "CREATE".toList = Text.lower createWord ∧
      Text.lower "VIEW".toList = Text.lower viewWord := by decide +kernel
  obtain ⟨hsplit, hlower, hlower'⟩ := hsplit
  have hgap : IsGap [' '] := ⟨by simp, by decide⟩
  have hcreate : WordWritten createWord "CREATE ".toList := ⟨"CREATE".toList, [' '], rfl, hlower, hgap⟩
  have hview : WordWritten viewWord "VIEW ".toList := ⟨"VIEW".toList, [' '], rfl, hlower', hgap⟩
  rw [hsplit, List.append_assoc]
  show (Header.mk false [] body).Written ("CREATE ".toList ++ ([] ++ ([] ++ ("VIEW ".toList ++ body))))
  exact .mk hcreate .absent .nil hview hb

/-- A definition is made plain once and for all. -/
theorem normalizeHeader_idempotent (text : Text) : normalizeHeader (normalizeHeader text) = normalizeHeader text := by
  cases hread : Header.read (Text.trimStart text) with
  | error e =>
    have hsame : normalizeHeader text = text := by rw [normalizeHeader, hread]
    rw [hsame, hsame]
  | ok h =>
    have hplain : normalizeHeader text = plainHeader ++ h.body := by rw [normalizeHeader, hread]
    have hbody := (Header.read_eq_ok_iff.mp hread).head?_body
    rw [hplain, normalizeHeader_written (plainHeader_written hbody)]

end Header

/-- **Reading undoes writing.** A header is read from a text exactly if it is written so; then the definition becomes
the plain header and the body. Made plain twice, a definition is as made plain once. -/
theorem readHeader_written (h : Header) (text : Text) :
    (h.Written text ↔ Header.read text = .ok h) ∧ (h.Written text → normalizeHeader text = plainHeader ++ h.body) ∧
      normalizeHeader (normalizeHeader text) = normalizeHeader text :=
  ⟨Header.read_eq_ok_iff.symm, normalizeHeader_written, normalizeHeader_idempotent text⟩

/-- A header with options of all kinds, one of them repeated, in mixed letter case and with wide gaps. -/
theorem readHeader_written_mixed :
    let text := "create OR\n\tREPLACE DEFINER =\r\n`lab`@`%` sql  Security INVOKER algorithm=merge Definer=a=b\tVIEW  v as".toList
    let h : Header := ⟨true, [.definer "`lab`@`%`".toList, .security .invoker, .algorithm "merge".toList,
      .definer "a=b".toList], "v as".toList⟩
    h.Written text ∧ Header.read text = .ok h ∧ normalizeHeader text = "CREATE VIEW v as".toList := by
  intro text h
  have hlower : ∀ p ∈ [(createWord, "create"), (orWord, "OR"), (replaceWord, "REPLACE"), (definerWord, "DEFINER"),
      (sqlWord, "sql"), (securityWord, "Security"), (algorithmWord, "algorithm"), (definerWord, "Definer"),
      (viewWord, "VIEW")], Text.lower p.2.toList = Text.lower p.1 := by decide +kernel
  simp only [List.forall_mem_cons] at hlower
  obtain ⟨hcreate, hor, hreplace, hdefiner, hsql, hsecurity, halgorithm, hdefiner', hview, -⟩ := hlower
  have hword : ∀ {word v g : Text}, Text.lower v = Text.lower word → IsGap g → WordWritten word (v ++ g) :=
    fun hv hg => ⟨_, _, rfl, hv, hg⟩
  have hblank : IsGap [' '] := ⟨by simp, by decide⟩
  have hblanks : IsGap [' ', ' '] := ⟨by simp, by decide⟩
  have hlab : ValueWritten definerWord (fun c => !isSpace c) "`lab`@`%`".toList "DEFINER =\r\n`lab`@`%`".toList :=
    ⟨"DEFINER".toList, [' '], "\r\n".toList, rfl, hdefiner, by decide, by decide, by decide, by decide⟩
  have hinvoker : Text.lower "INVOKER".toList = Text.lower Security.invoker.name.toList := rfl
  have hmerge : ValueWritten algorithmWord (fun c => c.isAlphanum || c = '_') "merge".toList "algorithm=merge".toList :=
    ⟨"algorithm".toList, [], [], rfl, halgorithm, by simp, by simp, by decide, by decide⟩
  have hab : ValueWritten definerWord (fun c => !isSpace c) "a=b".toList "Definer=a=b".toList :=
    ⟨"Definer".toList, [], [], rfl, hdefiner', by simp, by simp, by decide, by decide⟩
  have hrunAs := HeaderOption.Written.security (hword hsql hblanks) (hword hsecurity hblank) hinvoker
  have hoptions := OptionsWritten.cons (.definer hlab) hblank (.cons hrunAs hblank
    (.cons (.algorithm hmerge) hblank (.cons (.definer hab) (g := ['\t']) ⟨by simp, by decide⟩ .nil)))
  have hgap : IsGap ['\n', '\t'] := ⟨by simp, by decide⟩
  have hwritten : h.Written text :=
    .mk (h := h) (hword hcreate hblank) (.present (hword hor hgap) (hword hreplace hblank)) hoptions
      (hword hview hblanks) rfl
  obtain ⟨hread, hplain, -⟩ := readHeader_written h text
  exact ⟨hwritten, hread.mp hwritten, (hplain hwritten).trans (by decide +kernel)⟩

end SqlDialect.View
