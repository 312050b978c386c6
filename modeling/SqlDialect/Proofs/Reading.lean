import SqlDialect.Bracket

/-!
# Reading a text in front of another

What a character opens depends on what follows it: a quote needs a partner, and two dashes need a blank. `Reads a r ps`
says that in front of `r` the text `a` is read as the pieces `ps`, none of which reaches into `r`.

* `Reads.append`, `Reads.split`: readings of neighbouring texts make up the reading of both.
* `Reads.context`: what is read as `ps` in front of one text is read so in front of another, if no line comment at its
  end, no quote without a partner and no comment across the border makes a difference.
-/

namespace SqlDialect

/-- An element of two lists put together stands in the second of them or in the first. -/
theorem append_eq_append_cons {α : Type} {xs ys as bs : List α} {c : α} (h : xs ++ ys = as ++ c :: bs) :
    (∃ zs, as = xs ++ zs ∧ ys = zs ++ c :: bs) ∨ ∃ zs, xs = as ++ c :: zs ∧ bs = zs ++ ys := by
  rcases List.append_eq_append_iff.mp h with ⟨zs, has, hys⟩ | ⟨zs, rfl, hbs⟩
  · exact Or.inl ⟨zs, has, hys⟩
  · rcases List.append_eq_cons_iff.mp hbs.symm with ⟨rfl, hys⟩ | ⟨zs, rfl, hzs⟩
    · exact Or.inl ⟨[], by simp, hys⟩
    · exact Or.inr ⟨zs, rfl, hzs⟩

/-! ## What a text starts with, in front of another -/

theorem literalTail?_eq_none_iff {q : Char} {rest : Text} :
    literalTail? q rest = none ↔ (isQuote q = true → q ∉ rest) := by
  unfold literalTail?
  split
  · next hq => simp [hq]
  · next hq => simp [hq]

theorem literalTail?_of_code {c : Char} (hc : isQuote c = false) (rest : Text) : literalTail? c rest = none :=
  literalTail?_eq_none_iff.mpr fun hq => by
    rw [hc] at hq
    cases hq

/-- A literal ends at the next quote of its kind. -/
theorem literalTail?_eq_some_iff {q : Char} {rest : Text} {n : Nat} :
    literalTail? q rest = some n ↔ isQuote q = true ∧ ∃ x r, rest = x ++ q :: r ∧ q ∉ x ∧ n = x.length + 1 := by
  constructor
  · intro h
    unfold literalTail? at h
    split at h
    · next hq =>
      obtain ⟨i, hi, rfl⟩ := Option.map_eq_some_iff.mp h
      obtain ⟨hlt, hget, hbefore⟩ := List.idxOf?_eq_some_iff.mp hi
      refine ⟨hq, rest.take i, rest.drop (i + 1), ?_, fun hm => ?_, ?_⟩
      · conv => lhs; rw [← List.take_append_drop i rest, List.drop_eq_getElem_cons hlt, hget]
      · obtain ⟨j, hj, he⟩ := List.mem_take_iff_getElem.mp hm
        exact hbefore j (by omega) he
      · rw [List.length_take, Nat.min_eq_left (Nat.le_of_lt hlt)]
    · cases h
  · rintro ⟨hq, x, r, rfl, hx, rfl⟩
    have hnone : x.findIdx? (· == q) = none := by
      rw [List.findIdx?_eq_none_iff]
      exact fun c hc => by simpa using fun he : c = q => hx (he ▸ hc)
    rw [literalTail?, if_pos hq, List.idxOf?, List.findIdx?_append, hnone, List.findIdx?_cons, beq_self_eq_true]
    simp

/-- A literal that ends within `a` does not depend on what follows `a`. -/
theorem literalTail?_append {q : Char} {a r : Text} {n : Nat} (h : literalTail? q (a ++ r) = some n)
    (hn : n ≤ a.length) (r' : Text) : literalTail? q (a ++ r') = some n := by
  unfold literalTail? at h ⊢
  split at h
  · next hq =>
    obtain ⟨i, hi, rfl⟩ := Option.map_eq_some_iff.mp h
    rw [if_pos hq]
    simp only [List.idxOf?, List.findIdx?_append] at hi ⊢
    cases ha : a.findIdx? (· == q) with
    | some j =>
      rw [ha] at hi
      simp only [Option.some_or, Option.some.injEq] at hi
      simp [hi]
    | none =>
      rw [ha, Option.none_or] at hi
      obtain ⟨j, _, hj⟩ := Option.map_eq_some_iff.mp hi
      omega
  · cases h

theorem lineLength_append (a r : Text) :
    lineLength (a ++ r) = if '\n' ∈ a then lineLength a else a.length + lineLength r := by
  induction a with
  | nil => simp
  | cons c a ih =>
    by_cases hc : c = '\n'
    · simp [lineLength, hc]
    · have hc' : ¬ '\n' = c := fun h => hc h.symm
      simp only [List.cons_append, lineLength, hc, ih, List.mem_cons, hc', false_or, if_false, List.length_cons]
      split <;> omega

theorem lineLength_eq_zero {t : Text} (h : lineLength t = 0) : t = [] ∨ t.head? = some '\n' := by
  cases t with
  | nil => exact Or.inl rfl
  | cons c t =>
    right
    simp only [lineLength] at h
    split at h
    · next hc => simp [hc]
    · omega

theorem blockLength_pos {t : Text} (h : t ≠ []) : 0 < blockLength t := by
  fun_induction blockLength t with
  | case1 => exact absurd rfl h
  | case2 => omega
  | case3 => omega

/-- A block that ends within `a` does not depend on what follows `a`. -/
theorem blockLength_append {a r : Text} (hr : r ≠ []) (h : blockLength (a ++ r) ≤ a.length) (r' : Text) :
    blockLength (a ++ r') = blockLength (a ++ r) := by
  induction a with
  | nil =>
    have := blockLength_pos hr
    simp only [List.nil_append, List.length_nil] at h
    omega
  | cons c a ih =>
    cases a with
    | nil =>
      have := blockLength_pos hr
      exfalso
      simp only [List.cons_append, List.nil_append, List.length_cons, List.length_nil] at h
      unfold blockLength at h
      split at h
      · next he => cases he
      · omega
      · next he => cases he; omega
    | cons d a =>
      by_cases hcd : c = '*' ∧ d = '/'
      · obtain ⟨rfl, rfl⟩ := hcd
        simp [blockLength]
      · have hstep : ∀ t : Text, blockLength (c :: d :: t) = blockLength (d :: t) + 1 := fun t => by
          rw [blockLength]
          intro t' h1 he
          cases he
          exact hcd ⟨h1, rfl⟩
        simp only [List.cons_append, List.length_cons] at h ih ⊢
        rw [hstep] at h
        rw [hstep, hstep, ih (by omega)]

theorem commentTail?_eq_none_iff {c : Char} {rest : Text} :
    commentTail? c rest = none ↔
      c ≠ '#' ∧ (c = '/' → rest.head? ≠ some '*') ∧
        (c = '-' → rest.head? = some '-' → rest.tail.head?.all isBlank = false) := by
  unfold commentTail?
  split
  · simp
  · simp
  · next body => simp
  · next c' rest' h1 h2 h3 =>
    refine ⟨fun _ => ⟨fun h => h1 h, fun h he => ?_, fun h he => ?_⟩, fun _ => rfl⟩
    · cases rest with
      | nil => cases he
      | cons d body => cases he; exact absurd rfl (h2 body h)
    · cases rest with
      | nil => cases he
      | cons d body => cases he; exact absurd rfl (h3 body h)


/-- A comment that ends within `a` does not depend on what follows `a`, unless it ends at the end of its line. -/
theorem commentTail?_append {c : Char} {a r : Text} {n : Nat} (h : commentTail? c (a ++ r) = some n)
    (hn : n ≤ a.length) (hr : r ≠ []) (hend : c ≠ '/' → n = a.length → r.head? ≠ some '\n') (r' : Text) :
    commentTail? c (a ++ r') = some n := by
  have hline : ∀ x : Text, lineLength (x ++ r) ≤ x.length → (lineLength (x ++ r) = x.length → r.head? ≠ some '\n') →
      lineLength (x ++ r') = lineLength (x ++ r) := by
    intro x hx hx'
    by_cases hm : '\n' ∈ x
    · simp [lineLength_append, hm]
    · rw [lineLength_append, if_neg hm] at hx hx'
      have h0 : lineLength r = 0 := by omega
      rcases lineLength_eq_zero h0 with h1 | h1
      · exact absurd h1 hr
      · exact absurd h1 (hx' (by omega))
  unfold commentTail? at h
  split at h
  · cases h
    simp only [commentTail?]
    rw [hline a hn (hend (by decide))]
  · next body he =>
    cases h
    cases a with
    | nil => simp at hn
    | cons d a =>
      simp only [List.cons_append, List.cons.injEq] at he
      obtain ⟨rfl, rfl⟩ := he
      simp only [List.length_cons] at hn
      simp only [List.cons_append, commentTail?]
      rw [blockLength_append hr (by omega)]
  · next body he =>
    split at h
    · next hb =>
      cases h
      cases a with
      | nil => simp at hn
      | cons d a =>
        simp only [List.cons_append, List.cons.injEq] at he
        obtain ⟨rfl, rfl⟩ := he
        simp only [List.length_cons] at hn hend
        have hl := hline a (by omega) (fun e => hend (by decide) (by omega))
        have hb' : (a ++ r').head?.all isBlank = true := by
          cases a with
          | cons d a => simpa using hb
          | nil =>
            exfalso
            simp only [List.nil_append, List.length_nil] at hn hend
            have h0 : lineLength r = 0 := by omega
            rcases lineLength_eq_zero h0 with h1 | h1
            · exact hr h1
            · exact hend (by decide) (by omega) h1
        simp only [List.cons_append, commentTail?, hb', if_true, hl]
    · cases h
  · cases h

/-- A text `r` stands apart from what precedes it: neither its first character nor a blank there makes a comment out
of the last characters of `a`. -/
def Apart (a r : Text) : Prop :=
  r.head? ≠ some '-' ∧ r.head? ≠ some '*' ∧ (r.head?.all isBlank = true → a.getLast? ≠ some '-')

theorem Apart.of_append {a b r : Text} (h : Apart (a ++ b) r) : Apart b r :=
  ⟨h.1, h.2.1, fun hb hl => h.2.2 hb (by rw [List.getLast?_append, hl]; rfl)⟩

/-- What no comment starts with starts none in front of another text that stands apart. -/
theorem commentTail?_append_none {c : Char} {a r r' : Text} (h : commentTail? c (a ++ r) = none)
    (hj : r'.take 2 = r.take 2 ∨ Apart (c :: a) r') : commentTail? c (a ++ r') = none := by
  have htake : ∀ {s t : Text}, s.take 2 = t.take 2 → commentTail? c s = none → commentTail? c t = none := by
    intro s t hst hs
    rw [commentTail?_eq_none_iff] at hs ⊢
    have hget : ∀ i, i < 2 → s[i]? = t[i]? := fun i hi => by
      have := congrArg (fun l : Text => l[i]?) hst
      simpa [List.getElem?_take, hi] using this
    have h1 : s.head? = t.head? := by simpa [List.head?_eq_getElem?] using hget 0 (by omega)
    have h2 : s.tail.head? = t.tail.head? := by simpa [List.head?_tail] using hget 1 (by omega)
    rw [h1, h2] at hs
    exact hs
  rcases hj with hj | ⟨h1, h2, h3⟩
  · refine htake ?_ h
    match a with
    | [] => simpa using hj.symm
    | [d] =>
      have : r.take 1 = r'.take 1 := by
        have := congrArg (List.take 1) hj
        simpa [List.take_take] using this.symm
      simpa using this
    | d :: e :: a => simp
  · rw [commentTail?_eq_none_iff] at h ⊢
    match a with
    | [] => exact ⟨h.1, fun _ => h2, fun _ e => absurd e h1⟩
    | [d] =>
      refine ⟨h.1, by simpa using h.2.1, fun hc hd => ?_⟩
      simp only [List.cons_append, List.nil_append, List.head?_cons, Option.some.injEq] at hd
      simp only [List.cons_append, List.nil_append, List.tail_cons]
      cases hb : r'.head?.all isBlank with
      | false => rfl
      | true => exact absurd (by simp [hd]) (h3 hb)
    | d :: e :: a => simpa using h


/-- No quote opens a comment. -/
theorem isQuote_of_commentTail? {c : Char} {rest : Text} {n : Nat} (h : commentTail? c rest = some n) :
    isQuote c = false := by
  unfold commentTail? at h
  split at h <;> first | rfl | cases h

/-- What a text starts with does not depend on what follows `a`, if it ends within `a`. -/
theorem regionTail?_append {c : Char} {a r : Text} {kind : RegionKind} {n : Nat}
    (h : regionTail? c (a ++ r) = some (kind, n)) (hn : n ≤ a.length) (hr : r ≠ [])
    (hend : kind = .comment → c ≠ '/' → n = a.length → r.head? ≠ some '\n') (r' : Text) :
    regionTail? c (a ++ r') = some (kind, n) := by
  unfold regionTail? at h ⊢
  split at h
  · next m hm =>
    cases h
    rw [literalTail?_append hm hn r']
  · next hm =>
    obtain ⟨m, hc, he⟩ := Option.map_eq_some_iff.mp h
    cases he
    have hl : literalTail? c (a ++ r') = none :=
      literalTail?_eq_none_iff.mpr fun hq => absurd hq (by simp [isQuote_of_commentTail? hc])
    rw [hl, commentTail?_append hc hn hr (hend rfl) r']
    rfl

theorem regionTail?_eq_none_iff {c : Char} {rest : Text} :
    regionTail? c rest = none ↔ literalTail? c rest = none ∧ commentTail? c rest = none := by
  unfold regionTail?
  split
  · next n h => simp [h]
  · next h => simp [h]

theorem regionTail?_of_code {c : Char} {rest : Text} (hq : isQuote c = false) (hn : commentTail? c rest = none) :
    regionTail? c rest = none := regionTail?_eq_none_iff.mpr ⟨literalTail?_of_code hq rest, hn⟩

/-- A character that is neither a quote nor the start of a comment. -/
theorem regionTail?_of_ne {c : Char} (hq : isQuote c = false) (h₁ : c ≠ '#') (h₂ : c ≠ '/') (h₃ : c ≠ '-')
    (rest : Text) : regionTail? c rest = none := by
  rw [regionTail?_eq_none_iff, literalTail?_eq_none_iff, commentTail?_eq_none_iff]
  exact ⟨fun h => absurd h (by simp [hq]), h₁, fun h => absurd h h₂, fun h => absurd h h₃⟩

/-- A character of a class without quotes and marks of comments opens no region. -/
theorem regionTail?_of_class {p : Char → Bool} (hp : ∀ d ∈ ['\'', '"', '\x60', '#', '/', '-'], p d = false) {c : Char}
    (hc : p c = true) (rest : Text) : regionTail? c rest = none := by
  have hne : ∀ d ∈ ['\'', '"', '\x60', '#', '/', '-'], c ≠ d := fun d hd e => by
    rw [e, hp d hd] at hc
    cases hc
  refine regionTail?_of_ne ?_ (hne _ (by decide)) (hne _ (by decide)) (hne _ (by decide)) rest
  simp only [isQuote, Bool.or_eq_false_iff, decide_eq_false_iff_not]
  exact ⟨⟨hne _ (by decide), hne _ (by decide)⟩, hne _ (by decide)⟩

theorem regionTail?_cases {c : Char} {rest : Text} {kind : RegionKind} {n : Nat}
    (h : regionTail? c rest = some (kind, n)) :
    kind = .literal ∧ literalTail? c rest = some n ∨ kind = .comment ∧ commentTail? c rest = some n := by
  unfold regionTail? at h
  split at h
  · next m hm =>
    cases h
    exact Or.inl ⟨rfl, hm⟩
  · obtain ⟨m, hm, he⟩ := Option.map_eq_some_iff.mp h
    cases he
    exact Or.inr ⟨rfl, hm⟩

theorem regionTail?_of_commentTail? {c : Char} {rest : Text} {n : Nat} (h : commentTail? c rest = some n) :
    regionTail? c rest = some (.comment, n) := by
  have hl : literalTail? c rest = none :=
    literalTail?_eq_none_iff.mpr fun hq => absurd hq (by simp [isQuote_of_commentTail? h])
  rw [regionTail?, hl, h]
  rfl

/-- A region that ends in front of a line break is read so in front of another one. -/
theorem regionTail?_append_line {c : Char} {a r : Text} {kind : RegionKind}
    (h : regionTail? c (a ++ '\n' :: r) = some (kind, a.length)) (r' : Text) :
    regionTail? c (a ++ '\n' :: r') = some (kind, a.length) := by
  rcases regionTail?_cases h with ⟨rfl, hl⟩ | ⟨rfl, hc⟩
  · rw [regionTail?, literalTail?_append hl (Nat.le_refl _)]
  · refine regionTail?_of_commentTail? ?_
    -- a block ends by itself, and the other comments end at the line break
    by_cases hslash : c = '/'
    · exact commentTail?_append hc (Nat.le_refl _) (by simp) (fun h => absurd hslash h) _
    · have hline : ∀ x : Text, lineLength (x ++ '\n' :: r') = lineLength (x ++ '\n' :: r) := fun x => by
        rw [lineLength_append, lineLength_append]
        rfl
      unfold commentTail? at hc ⊢
      split at hc
      · simpa [hline] using hc
      · exact absurd rfl hslash
      · next body he =>
        cases a with
        | nil => cases he
        | cons d a =>
          simp only [List.cons_append, List.cons.injEq] at he
          obtain ⟨rfl, rfl⟩ := he
          have hhead : (a ++ '\n' :: r').head?.all isBlank = (a ++ '\n' :: r).head?.all isBlank := by cases a <;> rfl
          simpa [hline, hhead] using hc
      · cases hc

/-- What starts no region starts none in front of another text, if a quote finds no partner in that either. -/
theorem regionTail?_append_none {c : Char} {a r r' : Text} (h : regionTail? c (a ++ r) = none)
    (hj : r'.take 2 = r.take 2 ∨ Apart (c :: a) r') (hq : isQuote c = true → c ∉ r') :
    regionTail? c (a ++ r') = none := by
  rw [regionTail?_eq_none_iff] at h ⊢
  refine ⟨?_, commentTail?_append_none h.2 hj⟩
  rw [literalTail?_eq_none_iff] at h ⊢
  intro hcq hm
  rcases List.mem_append.mp hm with hm | hm
  · exact h.1 hcq (List.mem_append_left _ hm)
  · exact hq hcq hm

/-! ## What a text starts with, alone -/

/-- A comment that ends within `a` is met in `a` alone. -/
theorem commentTail?_alone {c : Char} {a r : Text} {n : Nat} (h : commentTail? c (a ++ r) = some n)
    (hn : n ≤ a.length) : commentTail? c a = some n := by
  have hline : ∀ x : Text, lineLength (x ++ r) ≤ x.length → lineLength x = lineLength (x ++ r) := fun x hx => by
    have halone := lineLength_append x []
    rw [List.append_nil] at halone
    rw [lineLength_append] at hx ⊢
    rw [halone]
    split
    · rfl
    · next hm =>
      rw [if_neg hm] at hx
      rw [lineLength]
      omega
  have hblock : ∀ x : Text, blockLength (x ++ r) ≤ x.length → blockLength x = blockLength (x ++ r) := fun x hx => by
    by_cases hr : r = []
    · rw [hr, List.append_nil]
    · have halone := blockLength_append hr hx []
      rwa [List.append_nil] at halone
  unfold commentTail? at h
  split at h
  · cases h
    simp only [commentTail?, hline a hn]
  · next body he =>
    cases h
    cases a with
    | nil => exact absurd hn (Nat.not_succ_le_zero _)
    | cons d a =>
      simp only [List.cons_append, List.cons.injEq] at he
      obtain ⟨rfl, rfl⟩ := he
      simp only [commentTail?, hblock a (Nat.le_of_succ_le_succ hn)]
  · next body he =>
    split at h
    · next hb =>
      cases h
      cases a with
      | nil => exact absurd hn (Nat.not_succ_le_zero _)
      | cons d a =>
        simp only [List.cons_append, List.cons.injEq] at he
        obtain ⟨rfl, rfl⟩ := he
        have hb' : a.head?.all isBlank = true := by
          cases a with
          | nil => rfl
          | cons e a => exact hb
        simp only [commentTail?, hb', if_true, hline a (Nat.le_of_succ_le_succ hn)]
    · cases h
  · cases h

/-- What a text starts with within `a` is met in `a` alone. -/
theorem regionTail?_alone {c : Char} {a r : Text} {kind : RegionKind} {n : Nat}
    (h : regionTail? c (a ++ r) = some (kind, n)) (hn : n ≤ a.length) : regionTail? c a = some (kind, n) := by
  rcases regionTail?_cases h with ⟨rfl, hl⟩ | ⟨rfl, hc⟩
  · have halone := literalTail?_append hl hn []
    rw [List.append_nil] at halone
    rw [regionTail?, halone]
  · exact regionTail?_of_commentTail? (commentTail?_alone hc hn)

/-- What opens no region in front of another text opens none alone, but for two dashes. -/
theorem regionTail?_alone_none {c : Char} {a r : Text} (h : regionTail? c (a ++ r) = none)
    (hdash : ¬ (c = '-' ∧ a = ['-'])) : regionTail? c a = none := by
  rw [regionTail?_eq_none_iff, literalTail?_eq_none_iff, commentTail?_eq_none_iff] at h ⊢
  obtain ⟨hquote, hhash, hslash, hdashes⟩ := h
  refine ⟨fun hq hm => hquote hq (List.mem_append_left _ hm), hhash, fun hs hh => ?_, fun hd hh => ?_⟩
  · exact hslash hs (by rw [List.head?_append, hh]; rfl)
  · obtain ⟨b, rfl⟩ : ∃ b, a = '-' :: b := by
      cases a with
      | nil => cases hh
      | cons d b => exact ⟨b, by rw [Option.some.inj hh]⟩
    cases b with
    | nil => exact absurd ⟨hd, rfl⟩ hdash
    | cons e b => exact hdashes hd rfl

/-! ## Pieces in front of a text -/

/-- The first piece of a text and the text behind it. -/
theorem pieces_cons (c : Char) (rest : Text) :
    ∃ p n, pieces (c :: rest) = p :: pieces (rest.drop n) ∧ p.text = c :: rest.take n ∧ n ≤ rest.length := by
  cases h : regionTail? c rest with
  | none => exact ⟨.code c, 0, by simpa using pieces_code h, by simp [Piece.text], by omega⟩
  | some kn =>
    obtain ⟨kind, n⟩ := kn
    exact ⟨.region kind (c :: rest.take n), n, pieces_region h, rfl, lt_of_regionTail? h⟩

theorem pieces_eq_code {c d : Char} {rest : Text} {qs : List Piece} (h : pieces (c :: rest) = .code d :: qs) :
    c = d ∧ regionTail? c rest = none ∧ pieces rest = qs := by
  cases hr : regionTail? c rest with
  | none =>
    rw [pieces_code hr, List.cons.injEq, Piece.code.injEq] at h
    exact ⟨h.1, rfl, h.2⟩
  | some kn =>
    rw [pieces_region hr] at h
    cases h

theorem pieces_eq_region {c : Char} {rest t : Text} {kind : RegionKind} {qs : List Piece}
    (h : pieces (c :: rest) = .region kind t :: qs) :
    ∃ n, regionTail? c rest = some (kind, n) ∧ t = c :: rest.take n ∧ pieces (rest.drop n) = qs := by
  cases hr : regionTail? c rest with
  | none =>
    rw [pieces_code hr] at h
    cases h
  | some kn =>
    obtain ⟨k, n⟩ := kn
    rw [pieces_region hr, List.cons.injEq, Piece.region.injEq] at h
    obtain ⟨⟨rfl, rfl⟩, h⟩ := h
    exact ⟨n, rfl, rfl, h⟩

/-- The region that a text starts with. -/
theorem regionTail?_of_pieces {c : Char} {a r : Text} {kind : RegionKind} {qs : List Piece}
    (h : pieces (c :: a ++ r) = .region kind (c :: a) :: qs) : regionTail? c (a ++ r) = some (kind, a.length) := by
  obtain ⟨n, hr, ht, -⟩ := pieces_eq_region h
  have hle := lt_of_regionTail? hr
  have hlen := congrArg List.length ht
  simp only [List.append_eq, List.length_cons, List.length_take] at hlen hle
  rw [show n = a.length by omega] at hr
  exact hr

/-- From a place between two pieces on, a text is read as by itself. -/
theorem pieces_textOf {text : Text} {ps qs : List Piece} (h : pieces text = ps ++ qs) : pieces (textOf qs) = qs := by
  induction ps generalizing text with
  | nil =>
    have ht : textOf qs = text := by rw [← textOf_pieces text, h]; rfl
    rw [ht, h]; rfl
  | cons p ps ih =>
    cases text with
    | nil => simp at h
    | cons c rest =>
      obtain ⟨q, n, hq, _, _⟩ := pieces_cons c rest
      rw [hq, List.cons_append, List.cons.injEq] at h
      exact ih h.2

section Cuts

variable {text : Text} {ps qs : List Piece} {i : Nat}

/-- The text in front of a place between two pieces. -/
theorem take_of_pieces (h : pieces text = ps ++ qs) (hi : (textOf ps).length = i) : text.take i = textOf ps := by
  subst hi
  conv => lhs; rw [← textOf_pieces text, h, textOf_append, List.take_left]

/-- The text from a place between two pieces on. -/
theorem drop_of_pieces (h : pieces text = ps ++ qs) (hi : (textOf ps).length = i) : text.drop i = textOf qs := by
  subst hi
  conv => lhs; rw [← textOf_pieces text, h, textOf_append, List.drop_left]

/-- The text between two places between pieces. -/
theorem slice_of_pieces {rs : List Piece} {start stop : Nat} (h : pieces text = ps ++ (qs ++ rs))
    (hstart : (textOf ps).length = start) (hstop : start + (textOf qs).length = stop) :
    Text.slice text start stop = textOf qs := by
  have hcut : pieces text = (ps ++ qs) ++ rs := by rw [h, List.append_assoc]
  have hlen : (textOf (ps ++ qs)).length = stop := by rw [textOf_append, List.length_append, hstart, hstop]
  rw [Text.slice, take_of_pieces hcut hlen, textOf_append, ← hstart, List.drop_left]

end Cuts

/-- Is the piece a comment that runs to the end of its line? -/
def Piece.isLineComment : Piece → Bool
  | .region .comment (c :: _) => c ≠ '/'
  | _ => false

/-- In front of `rest` the text `text` is read as the pieces `ps`. -/
def Reads (text rest : Text) (ps : List Piece) : Prop := pieces (text ++ rest) = ps ++ pieces rest

namespace Reads

variable {a b r r' : Text} {ps qs rs : List Piece}

theorem nil (r : Text) : Reads [] r [] := rfl

theorem textOf_eq (h : Reads a r ps) : textOf ps = a := by
  have h1 : textOf (ps ++ pieces r) = a ++ r := by rw [← h, textOf_pieces]
  rw [textOf_append, textOf_pieces] at h1
  exact List.append_cancel_right h1

/-- In front of a text, another is read in one way only. -/
theorem unique (h : Reads a r ps) (h' : Reads a r qs) : ps = qs := List.append_cancel_right (h.symm.trans h')

/-- A cut of the pieces is a place from which on the text is read as by itself. -/
theorem of_pieces {text : Text} (h : pieces text = ps ++ qs) : Reads (textOf ps) (textOf qs) ps := by
  have ht : textOf ps ++ textOf qs = text := by rw [← textOf_append, ← h, textOf_pieces]
  rw [Reads, ht, pieces_textOf h, h]

/-- From a place between two pieces on, the rest is read as before. -/
theorem drop (h : Reads a r (ps ++ qs)) : Reads (textOf qs) r qs := by
  have h1 : pieces (a ++ r) = ps ++ (qs ++ pieces r) := by rw [h, List.append_assoc]
  have h2 := pieces_textOf h1
  rwa [textOf_append, textOf_pieces] at h2

/-- Up to a place between two pieces, a text is read as before. -/
theorem take (h : Reads a r (ps ++ qs)) : Reads (textOf ps) (textOf qs ++ r) ps := by
  have h1 : pieces (a ++ r) = ps ++ (qs ++ pieces r) := by rw [h, List.append_assoc]
  have h2 := of_pieces h1
  rwa [textOf_append, textOf_pieces] at h2

theorem append (ha : Reads a (b ++ r) ps) (hb : Reads b r qs) : Reads (a ++ b) r (ps ++ qs) := by
  rw [Reads, List.append_assoc, ha, hb, List.append_assoc]

end Reads

theorem textOf_eq_nil {text : Text} {ps qs : List Piece} (h : pieces text = ps ++ qs) (hp : textOf ps = []) :
    ps = [] := by
  cases ps with
  | nil => rfl
  | cons p ps =>
    exfalso
    cases text with
    | nil => simp at h
    | cons c rest =>
      obtain ⟨q, n, hq, hqt, _⟩ := pieces_cons c rest
      rw [hq, List.cons_append, List.cons.injEq] at h
      rw [textOf_cons, ← h.1, hqt] at hp
      simp at hp

/-- A place in the text of some pieces stands between two of them or within a region. -/
theorem textOf_split {ps : List Piece} {a b : Text} (h : textOf ps = a ++ b) :
    (∃ ms ns, ps = ms ++ ns ∧ textOf ms = a ∧ textOf ns = b) ∨
      ∃ ms kind t u ns, ps = ms ++ .region kind (t ++ u) :: ns ∧ a = textOf ms ++ t ∧ b = u ++ textOf ns ∧
        t ≠ [] ∧ u ≠ [] := by
  induction ps generalizing a with
  | nil =>
    obtain ⟨rfl, rfl⟩ := List.append_eq_nil_iff.mp h.symm
    exact Or.inl ⟨[], [], rfl, rfl, rfl⟩
  | cons p ps ih =>
    rw [textOf_cons] at h
    rcases List.append_eq_append_iff.mp h with ⟨a', ha, hps⟩ | ⟨u, hp, hb⟩
    · rcases ih hps with ⟨ms, ns, rfl, hm, hn⟩ | ⟨ms, kind, t, u, ns, rfl, hm, hn, ht, hu⟩
      · exact Or.inl ⟨p :: ms, ns, rfl, by rw [textOf_cons, hm, ha], hn⟩
      · exact Or.inr ⟨p :: ms, kind, t, u, ns, rfl, by rw [ha, hm, textOf_cons, List.append_assoc], hn, ht, hu⟩
    · by_cases ha : a = []
      · subst ha
        exact Or.inl ⟨[], p :: ps, rfl, rfl, by rw [textOf_cons, hp, hb]; rfl⟩
      · by_cases hu : u = []
        · subst hu
          exact Or.inl ⟨[p], ps, rfl, by simpa using hp, by simpa using hb.symm⟩
        · cases p with
          | code c =>
            have := congrArg List.length hp
            have h1 := List.length_pos_iff.mpr ha
            have h2 := List.length_pos_iff.mpr hu
            simp only [Piece.text, List.length_append, List.length_singleton] at this
            omega
          | region kind t =>
            simp only [Piece.text] at hp
            exact Or.inr ⟨[], kind, a, u, ps, by rw [hp]; rfl, rfl, hb, ha, hu⟩

namespace Reads

variable {a b r r' : Text} {ps qs rs : List Piece}

/-- A quote that is code has no partner behind it. -/
theorem not_mem_of_quote (h : Reads a r ps) {q : Char} (hq : isQuote q = true) (hm : .code q ∈ ps) : q ∉ r := by
  obtain ⟨ps₁, ps₂, rfl⟩ := List.append_of_mem hm
  have h1 : pieces (a ++ r) = ps₁ ++ .code q :: (ps₂ ++ pieces r) := by rw [h]; simp
  have h2 := pieces_textOf h1
  rw [textOf_cons, textOf_append, textOf_pieces] at h2
  have h3 := (regionTail?_eq_none_iff.mp (pieces_eq_code h2).2.1).1
  exact fun hr => literalTail?_eq_none_iff.mp h3 hq (List.mem_append_right _ (List.mem_append_right _ hr))

/-- What is read as `rs` up to a later place is read as `ps` up to an earlier one and then as something. -/
theorem split (ha : Reads a (b ++ r) ps) (hab : Reads (a ++ b) r rs) : ∃ qs, rs = ps ++ qs ∧ Reads b r qs := by
  have h : ps ++ pieces (b ++ r) = rs ++ pieces r := by rw [← ha, ← hab, List.append_assoc]
  rcases List.append_eq_append_iff.mp h with ⟨qs, h1, h2⟩ | ⟨qs, h1, h2⟩
  · exact ⟨qs, h1, h2⟩
  · have ht : textOf qs ++ (b ++ r) = r := by
      have := congrArg textOf h2
      rw [textOf_append, textOf_pieces, textOf_pieces] at this
      exact this.symm
    have hq : textOf qs = [] ∧ b = [] := by
      have := congrArg List.length ht
      simp only [List.length_append] at this
      exact ⟨List.length_eq_zero_iff.mp (by omega), List.length_eq_zero_iff.mp (by omega)⟩
    have hqs : qs = [] := textOf_eq_nil h2 hq.1
    subst hqs
    simp only [List.append_nil] at h1
    exact ⟨[], by simp [h1], by rw [hq.2]; exact nil r⟩

/-- **Change of context.** What is read as `ps` in front of `r` is read so in front of `r'` as well, if neither a line
comment at its end nor a quote without a partner reaches into `r'`. -/
theorem context (h : Reads a r ps) (hr : r ≠ [])
    (hend : ∀ p, ps.getLast? = some p → p.isLineComment = true → r.head? ≠ some '\n')
    (hj : r'.take 2 = r.take 2 ∨ Apart a r') (hq : ∀ q, isQuote q = true → .code q ∈ ps → q ∉ r') :
    Reads a r' ps := by
  induction ps generalizing a with
  | nil => rw [← h.textOf_eq]; exact nil r'
  | cons p ps ih =>
    have ht := h.textOf_eq
    cases a with
    | nil => simp [textOf_eq_nil h ht, Reads]
    | cons c a =>
      have hlast : ∀ q, ps.getLast? = some q → q.isLineComment = true → r.head? ≠ some '\n' := fun q ht => by
        refine hend q ?_
        cases ps with
        | nil => cases ht
        | cons q ps => simpa [List.getLast?_cons_cons] using ht
      have hj' : ∀ n, r'.take 2 = r.take 2 ∨ Apart (a.drop n) r' := fun n => hj.imp_right fun h => by
        have he : c :: a = (c :: a.take n) ++ a.drop n := by simp
        rw [he] at h
        exact h.of_append
      unfold Reads at h ⊢
      simp only [List.cons_append] at h ⊢
      cases hc : regionTail? c (a ++ r) with
      | none =>
        rw [pieces_code hc, List.cons.injEq] at h
        obtain ⟨rfl, h⟩ := h
        rw [pieces_code (regionTail?_append_none hc hj fun hcq => hq c hcq List.mem_cons_self)]
        exact congrArg _ (ih h hlast (hj' 0) fun q hqq hm => hq q hqq (List.mem_cons_of_mem _ hm))
      | some kn =>
        obtain ⟨kind, n⟩ := kn
        have hle := lt_of_regionTail? hc
        rw [List.length_append] at hle
        rw [pieces_region hc, List.cons.injEq] at h
        obtain ⟨rfl, h⟩ := h
        have hn : n ≤ a.length := by
          have := congrArg List.length ht
          simp only [textOf_cons, Piece.text, List.length_append, List.length_cons, List.length_take] at this
          omega
        rw [List.drop_append_of_le_length hn] at h
        have hc' : regionTail? c (a ++ r') = some (kind, n) := by
          refine regionTail?_append hc hn hr (fun hk hc' hna => ?_) r'
          subst hk
          have hps : ps = [] := by
            refine textOf_eq_nil h ?_
            have := congrArg List.length ht
            simp only [textOf_cons, Piece.text, List.length_append, List.length_cons, List.length_take] at this
            exact List.length_eq_zero_iff.mp (by omega)
          subst hps
          exact hend _ rfl (by simpa [Piece.isLineComment] using hc')
        rw [pieces_region hc', List.take_append_of_le_length hn, List.take_append_of_le_length hn,
          List.drop_append_of_le_length hn]
        exact congrArg _ (ih h hlast (hj' n) fun q hqq hm => hq q hqq (List.mem_cons_of_mem _ hm))

/-- What is read in front of a comma or a parenthesis does not depend on what follows that, if no quote without a
partner finds one there. -/
theorem delimited {c : Char} {x y : Text} (h : Reads a (c :: x) ps) (hc : c = ',' ∨ c = ')')
    (hq : ∀ q, isQuote q = true → .code q ∈ ps → q ∉ y) : Reads a (c :: y) ps := by
  have hclass : c ≠ '\n' ∧ c ≠ '-' ∧ c ≠ '*' ∧ isBlank c = false ∧ isQuote c = false := by
    rcases hc with rfl | rfl <;> decide
  obtain ⟨hline, hdash, hstar, hblank, hquote⟩ := hclass
  refine h.context (by simp) (fun _ _ _ => by simpa using hline) (Or.inr ?_) fun q hqq hm hmem => ?_
  · exact ⟨by simpa using hdash, by simpa using hstar, fun hb => by simp [hblank] at hb⟩
  · rcases List.mem_cons.mp hmem with rfl | hmem
    · rw [hquote] at hqq
      cases hqq
    · exact hq q hqq hm hmem

end Reads

/-! ## Literals -/

/-- A quoted text is a literal, whatever stands behind it. -/
theorem reads_literal {q : Char} {x : Text} (hq : isQuote q = true) (hx : q ∉ x) (r : Text) :
    Reads (q :: (x ++ [q])) r [.region .literal (q :: (x ++ [q]))] := by
  have htail : regionTail? q (x ++ [q] ++ r) = some (.literal, (x ++ [q]).length) := by
    have hl : literalTail? q (x ++ [q] ++ r) = some (x ++ [q]).length :=
      literalTail?_eq_some_iff.mpr ⟨hq, x, r, by simp, hx, List.length_append⟩
    rw [regionTail?, hl]
  rw [Reads, List.cons_append, pieces_region htail, List.take_left, List.drop_left]
  rfl

/-- A literal is a quoted text. -/
theorem quoted_of_literal {text t : Text} (h : .region .literal t ∈ pieces text) :
    ∃ q x, isQuote q = true ∧ q ∉ x ∧ t = q :: (x ++ [q]) := by
  obtain ⟨ms, ns, hp⟩ := List.append_of_mem h
  obtain ⟨q, u, rfl⟩ := List.exists_cons_of_ne_nil (region_ne_nil h)
  have hu := pieces_textOf hp
  rw [textOf_cons, Piece.text, List.cons_append] at hu
  rcases regionTail?_cases (regionTail?_of_pieces hu) with ⟨-, hl⟩ | ⟨hc, -⟩
  · obtain ⟨hq, x, r, hxr, hx, hlen⟩ := literalTail?_eq_some_iff.mp hl
    refine ⟨q, x, hq, hx, ?_⟩
    have hsplit : u ++ textOf ns = (x ++ [q]) ++ r := by rw [hxr]; simp
    rw [(List.append_inj hsplit (by rw [hlen, List.length_append]; rfl)).1]
  · cases hc

/-- The piece is a character of code that is no quote, or a quoted text as a literal. -/
def Piece.IsCodeOrLiteral : Piece → Prop
  | .code c => isQuote c = false
  | .region .literal t => ∃ q x, isQuote q = true ∧ q ∉ x ∧ t = q :: (x ++ [q])
  | .region .comment _ => False

/-- Code and literals that are put together are read as they are if nothing among them opens a comment. -/
theorem pieces_of_no_comment {ps : List Piece} (hps : ∀ p ∈ ps, p.IsCodeOrLiteral)
    (hc : ∀ t, .region .comment t ∉ pieces (textOf ps)) : pieces (textOf ps) = ps := by
  induction ps with
  | nil => exact pieces_nil
  | cons p ps ih =>
    have hp := hps p List.mem_cons_self
    have hps' : ∀ p ∈ ps, p.IsCodeOrLiteral := fun p hm => hps p (List.mem_cons_of_mem _ hm)
    cases p with
    | code c =>
      rw [textOf_cons, Piece.text, List.singleton_append] at hc ⊢
      cases hr : regionTail? c (textOf ps) with
      | none =>
        rw [pieces_code hr] at hc ⊢
        rw [ih hps' fun t ht => hc t (List.mem_cons_of_mem _ ht)]
      | some tail =>
        obtain ⟨kind, n⟩ := tail
        rw [pieces_region hr] at hc
        rcases regionTail?_cases hr with ⟨-, hl⟩ | ⟨rfl, -⟩
        · rw [literalTail?_of_code hp] at hl
          cases hl
        · exact absurd List.mem_cons_self (hc _)
    | region kind t =>
      cases kind with
      | comment => exact hp.elim
      | literal =>
        obtain ⟨q, x, hq, hx, rfl⟩ := hp
        rw [textOf_cons, Piece.text, reads_literal hq hx, List.singleton_append] at hc ⊢
        rw [ih hps' fun t ht => hc t (List.mem_cons_of_mem _ ht)]

/-! ## Text that is code -/

/-- Is the text code whatever stands behind it? It holds no quote and nothing that opens a comment. -/
def isPlain : Text → Bool
  | [] => true
  | c :: rest =>
    !isQuote c && c ≠ '#' && c ≠ '/' && (c ≠ '-' || rest.head?.any (· ≠ '-')) && isPlain rest

theorem textOf_map_code (t : Text) : textOf (t.map .code) = t := by
  induction t with
  | nil => rfl
  | cons c t ih => rw [List.map_cons, textOf_cons, ih]; rfl

theorem reads_of_isPlain {t : Text} (h : isPlain t = true) (r : Text) : Reads t r (t.map .code) := by
  induction t with
  | nil => exact Reads.nil r
  | cons c t ih =>
    simp only [isPlain, Bool.and_eq_true, Bool.not_eq_true', Bool.or_eq_true, decide_eq_true_eq] at h
    obtain ⟨⟨⟨⟨hq, h1⟩, h2⟩, h3⟩, ht⟩ := h
    have hnone : regionTail? c (t ++ r) = none := by
      rw [regionTail?_eq_none_iff, literalTail?_eq_none_iff, commentTail?_eq_none_iff]
      refine ⟨fun e => absurd e (by simp [hq]), h1, fun e => absurd e h2, fun e hh => ?_⟩
      cases t with
      | nil => simp [e] at h3
      | cons d t =>
        have hd : d = '-' := by simpa using hh
        simp [e, hd] at h3
    have ih' := ih ht
    unfold Reads at ih' ⊢
    rw [List.cons_append, pieces_code hnone, ih']
    rfl

end SqlDialect
