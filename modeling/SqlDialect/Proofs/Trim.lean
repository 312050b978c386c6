import SqlDialect.Proofs.Reading

/-!
# What trimming leaves of the pieces

A part of a statement is trimmed before it is written elsewhere. Spaces at its ends are code, so trimming takes whole
pieces away, with one exception: a line comment at the end loses the blanks in it. If its text still opens a comment,
whatever is written behind the part falls into it (`leavesCommentOpen`); if all that is left of it are two dashes,
these become code.

* `Reads.trimEnd`: the pieces of a text without the spaces at its end.
-/

namespace SqlDialect

/-! ## Spaces -/

namespace Text

theorem trimEnd_decomp (text : Text) : ∃ s, text = trimEnd text ++ s ∧ ∀ c ∈ s, isSpace c = true := by
  induction text with
  | nil => exact ⟨[], rfl, by simp⟩
  | cons c rest ih =>
    obtain ⟨s, h, hs⟩ := ih
    cases he : trimEnd rest with
    | nil =>
      have hrest : rest = s := by simpa [he] using h
      by_cases hc : isSpace c = true
      · refine ⟨c :: s, by simpa [trimEnd, he, hc] using hrest, ?_⟩
        simpa [hc] using hs
      · exact ⟨s, by simpa [trimEnd, he, hc] using hrest, hs⟩
    | cons d t =>
      rw [he] at h
      exact ⟨s, by simpa [trimEnd, he] using h, hs⟩

/-- Trimming takes away spaces at the start. -/
theorem trimStart_decomp (text : Text) : ∃ s, text = s ++ trimStart text ∧ ∀ c ∈ s, isSpace c = true := by
  refine ⟨text.takeWhile isSpace, (List.takeWhile_append_dropWhile).symm, fun c hc => ?_⟩
  have h := List.all_takeWhile (p := isSpace) (l := text)
  rw [List.all_eq_true] at h
  exact h c hc

end Text

theorem trimEnd_append {x : Text} (hx : x.getLast?.all (fun c => !isSpace c) = true) (a : Text) :
    Text.trimEnd (x ++ a) = x ++ Text.trimEnd a := by
  induction x with
  | nil => rfl
  | cons c x ih =>
    rw [List.cons_append, Text.trimEnd, List.cons_append]
    cases x with
    | nil =>
      have hc : isSpace c = false := by simpa using hx
      rw [List.nil_append, List.nil_append]
      cases Text.trimEnd a with
      | nil => simp [hc]
      | cons d t => rfl
    | cons d x =>
      rw [List.getLast?_cons_cons] at hx
      rw [ih hx]
      rfl

/-- Spaces at the end are taken away. -/
theorem trimEnd_append_spaces (x : Text) {s : Text} (hs : ∀ c ∈ s, isSpace c = true) :
    Text.trimEnd (x ++ s) = Text.trimEnd x := by
  induction x with
  | nil =>
    induction s with
    | nil => rfl
    | cons c s ih =>
      have hrest : Text.trimEnd s = [] := ih fun d hd => hs d (List.mem_cons_of_mem _ hd)
      simp [Text.trimEnd, hrest, hs c List.mem_cons_self]
  | cons c x ih => rw [List.cons_append, Text.trimEnd, Text.trimEnd, ih]

theorem takeWhile_append_end {p : Char → Bool} {r : Text} (h : r.head?.any p = false) (t : Text) :
    (t ++ r).takeWhile p = t.takeWhile p ∧ (t ++ r).dropWhile p = t.dropWhile p ++ r := by
  induction t with
  | nil =>
    cases r with
    | nil => exact ⟨rfl, rfl⟩
    | cons c r =>
      have hc : p c = false := h
      exact ⟨List.takeWhile_cons_of_neg (by simp [hc]), List.dropWhile_cons_of_neg (by simp [hc])⟩
  | cons c t ih =>
    rw [List.cons_append, List.takeWhile_cons, List.takeWhile_cons, List.dropWhile_cons, List.dropWhile_cons]
    split
    · exact ⟨by rw [ih.1], ih.2⟩
    · exact ⟨rfl, rfl⟩

/-- Characters of a class are taken up to the first of another. -/
theorem takeWhile_whole {p : Char → Bool} {t r : Text} (ht : ∀ c ∈ t, p c = true) (hr : r.head?.any p = false) :
    (t ++ r).takeWhile p = t := by
  have hself := @List.takeWhile_append_of_pos _ p t [] ht
  rw [List.append_nil, List.takeWhile_nil, List.append_nil] at hself
  rw [(takeWhile_append_end hr t).1, hself]

/-- The first position from `i` on where no space stands. -/
def behindSpaces (t : Text) (i : Nat) : Nat := i + ((t.drop i).takeWhile isSpace).length

/-- A text without the spaces around it stands behind the spaces that it starts with. -/
theorem trim_at {t x : Text} {i : Nat} (h : x <+: t.drop i) (hne : Text.trim x ≠ []) :
    Text.trim x <+: t.drop (behindSpaces t i) := by
  obtain ⟨r, hr⟩ := h
  obtain ⟨s, hs, hspaces⟩ := Text.trimStart_decomp x
  obtain ⟨s', hs', -⟩ := Text.trimEnd_decomp (Text.trimStart x)
  rw [← Text.trim] at hs'
  obtain ⟨c, y, hy⟩ := List.exists_cons_of_ne_nil hne
  have hc : isSpace c = false := by
    have := List.head?_dropWhile_not isSpace x
    rw [← Text.trimStart, hs', hy] at this
    simpa using this
  have hx : t.drop i = s ++ (Text.trim x ++ (s' ++ r)) := by
    rw [← hr, ← List.append_assoc (Text.trim x), ← hs', ← List.append_assoc, ← hs]
  rw [behindSpaces, ← List.drop_drop, hx, takeWhile_whole hspaces (by rw [hy]; exact hc), List.drop_left]
  exact List.prefix_append _ _

/-- No space opens a region. -/
theorem regionTail?_of_isSpace {c : Char} (h : isSpace c = true) (rest : Text) : regionTail? c rest = none :=
  regionTail?_of_class (by decide) h rest

theorem regionTail?_of_isBlank {c : Char} (h : isBlank c = true) (rest : Text) : regionTail? c rest = none :=
  regionTail?_of_isSpace (isSpace_of_isBlank h) rest

/-- Spaces are code. -/
theorem pieces_spaces {s : Text} (hs : ∀ c ∈ s, isSpace c = true) (r : Text) :
    pieces (s ++ r) = s.map .code ++ pieces r := by
  induction s with
  | nil => rfl
  | cons c s ih =>
    rw [List.cons_append, pieces_code (regionTail?_of_isSpace (hs c List.mem_cons_self) _),
      ih fun d hd => hs d (List.mem_cons_of_mem _ hd)]
    rfl

theorem reads_spaces {s : Text} (hs : ∀ c ∈ s, isSpace c = true) (r : Text) : Reads s r (s.map .code) :=
  pieces_spaces hs r

/-! ## Text that leaves no comment open -/

/-- Would a closing parenthesis written behind the text fall into a comment? -/
def leavesCommentOpen (text : Text) : Bool := (pieces (text ++ [')'])).getLast? != some (.code ')')

theorem pieces_parenthesis : pieces [')'] = [.code ')'] := by
  have h : regionTail? ')' [] = none := by decide
  rw [pieces_code h, pieces_nil]

/-- What leaves no comment open is read apart from a parenthesis behind it. -/
theorem reads_of_closed {text : Text} (h : leavesCommentOpen text = false) : ∃ ps, Reads text [')'] ps := by
  simp only [leavesCommentOpen, bne_eq_false_iff_eq] at h
  obtain ⟨ps, hps⟩ := List.getLast?_eq_some_iff.mp h
  exact ⟨ps, by rw [Reads, hps, pieces_parenthesis]⟩

theorem closed_of_reads {text : Text} {ps : List Piece} (h : Reads text [')'] ps) : leavesCommentOpen text = false := by
  rw [leavesCommentOpen, h, pieces_parenthesis]
  simp

/-- What is read up to a parenthesis leaves no comment open. -/
theorem closed_of_parenthesis {a x : Text} {ps : List Piece} (h : Reads a (')' :: x) ps) :
    leavesCommentOpen a = false :=
  closed_of_reads (h.delimited (Or.inr rfl) (by simp))

/-- A comment that runs to the end of the text takes in the parenthesis behind it. -/
theorem not_reads_of_comment {c : Char} {t : Text} {n : Nat} {ps : List Piece}
    (hc : commentTail? c (t ++ [')']) = some n) (hn : t.length < n) : ¬ Reads (c :: t) [')'] ps := by
  intro h
  have hl : literalTail? c (t ++ [')']) = none :=
    literalTail?_eq_none_iff.mpr fun hq => absurd hq (by simp [isQuote_of_commentTail? hc])
  have hr : regionTail? c (t ++ [')']) = some (.comment, n) := by simp [regionTail?, hl, hc]
  have hle := lt_of_regionTail? hr
  rw [List.length_append, List.length_singleton] at hle
  have hend : (t ++ [')']).drop n = [] := List.drop_eq_nil_of_le (by simp; omega)
  rw [Reads, List.cons_append, pieces_region hr, hend, pieces_nil, pieces_parenthesis] at h
  have := congrArg List.getLast? h
  simp at this

/-! ## Trimming at the end -/

/-- Spaces at the end of a text are code, or some of them belong to the region that the text before them ends in. -/
theorem Reads.split_spaces {m s r : Text} {qs : List Piece} (h : Reads (m ++ s) r qs)
    (hs : ∀ c ∈ s, isSpace c = true) :
    (∃ ms, qs = ms ++ s.map .code ∧ Reads m (s ++ r) ms) ∨
      ∃ ms kind t s₁ s₂, s = s₁ ++ s₂ ∧ s₁ ≠ [] ∧ t ≠ [] ∧ m = textOf ms ++ t ∧
        qs = ms ++ .region kind (t ++ s₁) :: s₂.map .code ∧ Reads (textOf ms) (t ++ (s ++ r)) ms := by
  have hcode : ∀ {ps ns : List Piece} {u : Text}, qs = ps ++ ns → textOf ns = u → (∀ c ∈ u, isSpace c = true) →
      ns = u.map .code := by
    intro ps ns u hq hn hu
    have h0 : pieces (m ++ s ++ r) = ps ++ (ns ++ pieces r) := by rw [h, hq, List.append_assoc]
    have h1 := pieces_textOf h0
    rw [textOf_append, textOf_pieces, hn, pieces_spaces hu] at h1
    exact (List.append_cancel_right h1).symm
  rcases textOf_split h.textOf_eq with ⟨ms, ns, rfl, rfl, rfl⟩ | ⟨ms, kind, t, u, ns, rfl, rfl, rfl, ht, hu⟩
  · have hns := hcode rfl rfl hs
    refine Or.inl ⟨ms, by rw [← hns], ?_⟩
    have h1 := of_pieces (h.trans (List.append_assoc ..))
    rwa [textOf_append, textOf_pieces] at h1
  · have he : ms ++ .region kind (t ++ u) :: ns = (ms ++ [.region kind (t ++ u)]) ++ ns := by simp
    have hns : ns = (textOf ns).map .code := hcode he rfl fun c hc => hs c (List.mem_append_right _ hc)
    refine Or.inr ⟨ms, kind, t, u, textOf ns, rfl, hu, ht, rfl, by rw [← hns], ?_⟩
    have h1 := of_pieces (h.trans (List.append_assoc ..))
    simpa [Piece.text] using h1

/-- A literal ends in its quote. -/
theorem getLast?_of_literalTail? {q : Char} {rest : Text} {n : Nat} (h : literalTail? q rest = some n) :
    isQuote q = true ∧ (rest.take n).getLast? = some q := by
  obtain ⟨hq, x, r, rfl, -, rfl⟩ := literalTail?_eq_some_iff.mp h
  have hsplit : x ++ q :: r = (x ++ [q]) ++ r := by simp
  refine ⟨hq, ?_⟩
  rw [hsplit, List.take_left' (by simp), List.getLast?_concat]

/-- A block ends in a slash or at the end of the text. -/
theorem getLast?_of_blockLength (t : Text) :
    blockLength t = t.length ∨ (t.take (blockLength t)).getLast? = some '/' := by
  fun_induction blockLength t with
  | case1 => exact Or.inl rfl
  | case2 => exact Or.inr rfl
  | case3 c rest h ih =>
    rcases ih with ih | ih
    · exact Or.inl (by simp [ih])
    · refine Or.inr ?_
      rw [List.take_succ_cons, List.getLast?_cons, ih]
      rfl

theorem not_mem_of_lineLength {a r : Text} (h : a.length ≤ lineLength (a ++ r)) : '\n' ∉ a := by
  induction a with
  | nil => simp
  | cons c a ih =>
    simp only [List.cons_append, lineLength, List.length_cons] at h
    split at h
    · omega
    · next hc =>
      simp only [List.mem_cons, not_or]
      exact ⟨fun e => hc e.symm, ih (by omega)⟩

/-- A comment ends in a slash, at the end of its line or at the end of the text. -/
theorem end_of_commentTail? {c : Char} {a r : Text} (h : commentTail? c (a ++ r) = some a.length) :
    (c :: a).getLast? = some '/' ∨ r = [] ∨ r.head? = some '\n' := by
  have hline : ∀ {x : Text}, lineLength (x ++ r) = x.length → r = [] ∨ r.head? = some '\n' := fun {x} hx => by
    have hm := not_mem_of_lineLength (Nat.le_of_eq hx.symm)
    rw [lineLength_append, if_neg hm] at hx
    exact lineLength_eq_zero (by omega)
  unfold commentTail? at h
  split at h
  · exact .inr (hline (Option.some.inj h))
  · next body he =>
    rw [Option.some.injEq] at h
    cases a with
    | nil => cases h
    | cons d a =>
      obtain ⟨rfl, rfl⟩ := List.cons.inj he
      have hlen : blockLength (a ++ r) = a.length := by simpa using h
      rcases getLast?_of_blockLength (a ++ r) with hb | hb
      · rw [hlen, List.length_append] at hb
        exact .inr (.inl (List.length_eq_zero_iff.mp (by omega)))
      · rw [hlen, List.take_left] at hb
        exact .inl (by rw [List.getLast?_cons, List.getLast?_cons, hb]; rfl)
  · next body he =>
    split at h
    · cases a with
      | nil => cases h
      | cons d a =>
        obtain ⟨rfl, rfl⟩ := List.cons.inj he
        exact .inr (hline (by simpa using h))
    · cases h
  · cases h

/-- What is left of a line comment cut off within it leaves a comment open, unless only the two dashes are left. -/
theorem dashes_of_cut {c : Char} {x r : Text} {n : Nat} {ps : List Piece} (h : commentTail? c (x ++ r) = some n)
    (hn : x.length ≤ n) (hc : c ≠ '/') (hx : c = '-' → x ≠ []) (hp : Reads (c :: x) [')'] ps) :
    c = '-' ∧ x = ['-'] ∧ ps = [.code '-', .code '-'] := by
  have hline : ∀ y : Text, '\n' ∉ y → lineLength (y ++ [')']) = y.length + 1 := fun y hy => by
    rw [lineLength_append, if_neg hy]; rfl
  unfold commentTail? at h
  split at h
  · cases h
    have hs : commentTail? '#' (x ++ [')']) = some (x.length + 1) := by
      simp only [commentTail?, hline x (not_mem_of_lineLength hn)]
    exact absurd hp (not_reads_of_comment hs (by omega))
  · exact absurd rfl hc
  · next body he =>
    split at h
    · next hb =>
      cases h
      cases x with
      | nil => exact absurd rfl (hx rfl)
      | cons d y =>
        simp only [List.cons_append, List.cons.injEq] at he
        obtain ⟨rfl, rfl⟩ := he
        simp only [List.length_cons] at hn
        cases y with
        | nil =>
          have h1 : regionTail? '-' ['-', ')'] = none := by decide
          have h2 : regionTail? '-' [')'] = none := by decide
          rw [Reads, List.cons_append, List.cons_append, List.nil_append, pieces_code h1, pieces_code h2,
            pieces_parenthesis] at hp
          have hp' : [.code '-', .code '-'] ++ [.code ')'] = ps ++ [.code ')'] := hp
          exact ⟨rfl, rfl, (List.append_cancel_right hp').symm⟩
        | cons e y =>
          have hb' : isBlank e = true := by simpa using hb
          have hs : commentTail? '-' ('-' :: e :: y ++ [')']) = some ((e :: y).length + 1 + 1) := by
            have := hline _ (not_mem_of_lineLength (a := e :: y) (by simpa using hn))
            simp only [List.cons_append] at this
            simp [commentTail?, hb', this]
          exact absurd hp (not_reads_of_comment hs (by simp))
    · cases h
  · cases h

/-- A block does not end in a space before the end of the text. -/
theorem ne_slash_of_space {c d : Char} {y r : Text} (h : commentTail? c (y ++ r) = some y.length)
    (hd : y.getLast? = some d) (hs : isSpace d = true) (hr : r ≠ []) : c ≠ '/' := by
  rintro rfl
  have htake : (y ++ r).take y.length = y := List.take_left
  have hlast := congrArg List.getLast? htake
  unfold commentTail? at h
  split at h
  · next h0 => cases h0
  · next body _ he =>
    rw [Option.some.injEq] at h
    rw [← h, he, hd, List.take_succ_cons, List.getLast?_cons] at hlast
    rcases getLast?_of_blockLength body with h1 | h1
    · have := congrArg List.length he
      have h2 := List.length_pos_iff.mpr hr
      simp only [List.length_append, List.length_cons] at this
      omega
    · rw [h1] at hlast
      rw [← Option.some.inj hlast] at hs
      cases hs
  · next h0 _ => cases h0
  · cases h

theorem mark_of_commentTail? {c : Char} {rest : Text} {n : Nat} (h : commentTail? c rest = some n) :
    c = '#' ∨ c = '/' ∨ c = '-' := by
  unfold commentTail? at h
  split at h
  · exact Or.inl rfl
  · exact Or.inr (Or.inl rfl)
  · exact Or.inr (Or.inr rfl)
  · cases h

theorem dash_of_commentTail? {rest : Text} {n : Nat} (h : commentTail? '-' rest = some n) :
    rest.head? = some '-' ∧ 0 < n := by
  unfold commentTail? at h
  split at h
  · next h0 => cases h0
  · next h0 => cases h0
  · split at h
    · cases h
      exact ⟨rfl, Nat.succ_pos _⟩
    · cases h
  · cases h

/-- What is left of the last region of a text without the spaces at its end opens no comment only if it is two dashes
of a line comment. -/
theorem Reads.dashes_of_region {ms ns ps : List Piece} {kind : RegionKind} {t s r : Text}
    (h : pieces (t ++ (s ++ r)) = .region kind (t ++ s) :: ns) (hm : Reads (textOf ms) (t ++ (s ++ r)) ms)
    (hs : ∀ c ∈ s, isSpace c = true) (hr : r ≠ []) (ht : t ≠ [])
    (hline : s = [] → Piece.isLineComment (.region kind t) = true) (hp : Reads (textOf ms ++ t) [')'] ps) :
    kind = .comment ∧ t = ['-', '-'] ∧ ps = ms ++ [.code '-', .code '-'] := by
  obtain ⟨c, x, rfl⟩ := List.exists_cons_of_ne_nil ht
  rw [List.cons_append, List.cons_append] at h
  obtain ⟨n, hreg, htext, -⟩ := pieces_eq_region h
  rw [List.cons.injEq] at htext
  have hn : n = (x ++ s).length := by
    have := congrArg List.length htext.2
    have hle := lt_of_regionTail? hreg
    simp only [List.length_append, List.length_take] at this hle ⊢
    omega
  have hlast : s ≠ [] → ∃ d, (x ++ s).getLast? = some d ∧ isSpace d = true := fun hne =>
    ⟨s.getLast hne, by simp [List.getLast?_append, List.getLast?_eq_some_getLast hne], hs _ (List.getLast_mem hne)⟩
  rcases regionTail?_cases hreg with ⟨rfl, hlit⟩ | ⟨rfl, hcom⟩
  · exfalso
    obtain ⟨hq, hl⟩ := getLast?_of_literalTail? hlit
    obtain ⟨d, hd, hsp⟩ := hlast fun e => by simpa [Piece.isLineComment] using hline e
    rw [← htext.2, hd, Option.some.injEq] at hl
    have h2 := (regionTail?_eq_none_iff.mp (regionTail?_of_isSpace hsp [d])).1
    exact literalTail?_eq_none_iff.mp h2 (hl ▸ hq) List.mem_cons_self
  · have hc : c ≠ '/' := by
      by_cases hne : s = []
      · simpa [Piece.isLineComment] using hline hne
      · obtain ⟨d, hd, hsp⟩ := hlast hne
        rw [hn, ← List.append_assoc] at hcom
        exact ne_slash_of_space hcom hd hsp hr
    have hx : c = '-' → ∃ y, x = '-' :: y := by
      rintro rfl
      obtain ⟨hh, hpos⟩ := dash_of_commentTail? hcom
      cases x with
      | cons d y => exact ⟨y, by simpa using hh⟩
      | nil =>
        exfalso
        cases s with
        | nil => rw [hn] at hpos; simp at hpos
        | cons d s =>
          have hd := hs d List.mem_cons_self
          rw [show d = '-' by simpa using hh] at hd
          cases hd
    have hms : Reads (textOf ms) (c :: x ++ [')']) ms := by
      have hmark : c = '#' ∨ c = '-' := by
        rcases mark_of_commentTail? hcom with h1 | h1 | h1
        · exact Or.inl h1
        · exact absurd h1 hc
        · exact Or.inr h1
      refine hm.context (by simp) (fun p _ _ => ?_) ?_ fun q hq hmem => ?_
      · rcases hmark with rfl | rfl <;> simp
      · rcases hmark with rfl | rfl
        · exact Or.inr ⟨by simp, by simp, fun hb => by simp [isBlank] at hb⟩
        · obtain ⟨y, rfl⟩ := hx rfl
          exact Or.inl (by simp)
      · have h1 := hm.not_mem_of_quote hq hmem
        have h2 : q ≠ ')' := fun e => by rw [e] at hq; cases hq
        simp only [List.mem_append, not_or, List.mem_singleton] at h1 ⊢
        exact ⟨h1.1, h2⟩
    obtain ⟨qs, rfl, hqs⟩ := hms.split hp
    obtain ⟨rfl, rfl, rfl⟩ := dashes_of_cut hcom (by simp [hn]) hc (fun e => by obtain ⟨y, rfl⟩ := hx e; simp) hqs
    exact ⟨rfl, rfl, rfl⟩

/-- **Trimming at the end.** If what is left of a text without the spaces at its end leaves no comment open, its pieces
are the ones of the text up to the spaces, but for two dashes that were a comment. -/
theorem Reads.trimEnd {m s r : Text} {qs : List Piece} (h : Reads (m ++ s) r qs) (hr : r ≠ [])
    (hs : ∀ c ∈ s, isSpace c = true) (hopen : leavesCommentOpen m = false) :
    ∃ ps, Reads m [')'] ps ∧
      (qs = ps ++ s.map .code ∨
        ∃ ms s₁ s₂, s = s₁ ++ s₂ ∧ ps = ms ++ [.code '-', .code '-'] ∧
          qs = ms ++ .region .comment ('-' :: '-' :: s₁) :: s₂.map .code) := by
  obtain ⟨ps, hps⟩ := reads_of_closed hopen
  refine ⟨ps, hps, ?_⟩
  have hdash : ∀ {ms ns : List Piece} {kind : RegionKind} {t s₁ s₂ : Text}, s = s₁ ++ s₂ → t ≠ [] →
      m = textOf ms ++ t → qs = ms ++ .region kind (t ++ s₁) :: ns → Reads (textOf ms) (t ++ (s ++ r)) ms →
      (s₁ = [] → Piece.isLineComment (.region kind t) = true) →
      kind = .comment ∧ t = ['-', '-'] ∧ ps = ms ++ [.code '-', .code '-'] := by
    intro ms ns kind t s₁ s₂ hss ht hm hq hms hline
    have hreg : pieces (t ++ (s ++ r)) = .region kind (t ++ s₁) :: (ns ++ pieces r) := by
      have h1 : pieces (textOf ms ++ (t ++ (s ++ r))) = qs ++ pieces r := by
        rw [← h, hm, List.append_assoc, List.append_assoc]
      rw [hms, hq, List.append_assoc] at h1
      exact List.append_cancel_left h1
    rw [hss, List.append_assoc] at hreg hms
    exact Reads.dashes_of_region hreg hms (fun c hc => hs c (by simp [hss, hc])) (by simp [hr]) ht hline (hm ▸ hps)
  rcases h.split_spaces hs with ⟨ms, rfl, hms⟩ | ⟨ms, kind, t, s₁, s₂, hss, hne, ht, hm, hq, hms⟩
  · by_cases hend : ∃ p, ms.getLast? = some p ∧ p.isLineComment = true
    · -- a line comment right before the spaces: the first of them may be the end of its line
      obtain ⟨p, hp, hl⟩ := hend
      obtain ⟨ms, rfl⟩ := List.getLast?_eq_some_iff.mp hp
      cases p with
      | code c => cases hl
      | region kind t =>
        have ht : t ≠ [] := by
          rintro rfl
          cases kind <;> cases hl
        have htm : m = textOf ms ++ t := by rw [← hms.textOf_eq]; simp [Piece.text]
        have hms' : Reads (textOf ms) (t ++ (s ++ r)) ms := by
          have := of_pieces (hms.trans (List.append_assoc ..))
          simpa [Piece.text] using this
        have hq : ms ++ [.region kind t] ++ s.map .code = ms ++ .region kind (t ++ []) :: s.map .code := by simp
        obtain ⟨rfl, rfl, hps'⟩ := hdash rfl ht htm hq hms' fun _ => hl
        exact Or.inr ⟨ms, [], s, rfl, hps', by simp⟩
    · have hms' : Reads m [')'] ms := by
        refine hms.context (by simp [hr]) (fun p hp hl => absurd ⟨p, hp, hl⟩ hend) (Or.inr ?_) fun q hq _ => ?_
        · exact ⟨by simp, by simp, fun hb => by simp [isBlank] at hb⟩
        · simpa using fun e => by rw [e] at hq; cases hq
      have he : ms ++ pieces [')'] = ps ++ pieces [')'] := by rw [← hms', ← hps]
      exact Or.inl (by rw [List.append_cancel_right he])
  · obtain ⟨rfl, rfl, hps'⟩ := hdash hss ht hm hq hms fun e => absurd e hne
    exact Or.inr ⟨ms, s₁, s₂, hss, hps', hq⟩

/-! ## Trimming at both ends -/

/-- The spaces at the start of a text are pieces of their own. -/
theorem Reads.drop_spaces {s m r : Text} {qs : List Piece} (h : Reads (s ++ m) r qs)
    (hs : ∀ c ∈ s, isSpace c = true) : ∃ ps, qs = s.map .code ++ ps ∧ Reads m r ps :=
  (reads_spaces hs (m ++ r)).split h

/-- **Trimming.** The pieces of a trimmed text that leaves no comment open. -/
theorem Reads.trim {a r : Text} {qs : List Piece} (h : Reads a r qs) (hr : r ≠ [])
    (hopen : leavesCommentOpen (Text.trim a) = false) :
    ∃ s₁ s₂ ps, a = s₁ ++ Text.trim a ++ s₂ ∧ (∀ c ∈ s₁, isSpace c = true) ∧ (∀ c ∈ s₂, isSpace c = true) ∧
      Reads (Text.trim a) [')'] ps ∧
      (qs = s₁.map .code ++ (ps ++ s₂.map .code) ∨
        ∃ ms t₁ t₂, s₂ = t₁ ++ t₂ ∧ ps = ms ++ [.code '-', .code '-'] ∧
          qs = s₁.map .code ++ (ms ++ .region .comment ('-' :: '-' :: t₁) :: t₂.map .code)) := by
  obtain ⟨s₁, ha, hs₁⟩ := Text.trimStart_decomp a
  obtain ⟨s₂, hm, hs₂⟩ := Text.trimEnd_decomp (Text.trimStart a)
  rw [ha] at h
  obtain ⟨qs', rfl, h'⟩ := h.drop_spaces hs₁
  rw [hm] at h'
  obtain ⟨ps, hps, hcases⟩ := h'.trimEnd hr hs₂ hopen
  refine ⟨s₁, s₂, ps, ?_, hs₁, hs₂, hps, ?_⟩
  · rw [Text.trim, List.append_assoc, ← hm, ← ha]
  · rcases hcases with rfl | ⟨ms, t₁, t₂, rfl, rfl, rfl⟩
    · exact Or.inl rfl
    · exact Or.inr ⟨ms, t₁, t₂, rfl, rfl, rfl⟩

/-- A trimmed text without comments leaves none open. -/
theorem Reads.closed_trim {a r : Text} {qs : List Piece} (h : Reads a r qs) (hr : r ≠ [])
    (hc : ∀ t, .region .comment t ∉ qs) : leavesCommentOpen (Text.trim a) = false := by
  obtain ⟨s₁, ha, hs₁⟩ := Text.trimStart_decomp a
  obtain ⟨s₂, hm, hs₂⟩ := Text.trimEnd_decomp (Text.trimStart a)
  rw [ha] at h
  obtain ⟨qs, rfl, h'⟩ := h.drop_spaces hs₁
  rw [hm] at h'
  rcases h'.split_spaces hs₂ with ⟨ms, rfl, hms⟩ | ⟨ms, kind, t, t₁, t₂, hss, hne, ht, htm, rfl, hms⟩
  · have hlast : ∀ p, ms.getLast? = some p → p.isLineComment = true → (s₂ ++ r).head? ≠ some '\n' := by
      intro p hp hl
      have hmem := List.mem_of_getLast? hp
      cases p with
      | code c => cases hl
      | region kind t =>
        cases kind with
        | literal => cases hl
        | comment => exact absurd (by simp [hmem]) (hc t)
    have hread : Reads (Text.trimEnd (Text.trimStart a)) [')'] ms := by
      refine hms.context (by simp [hr]) hlast (Or.inr ?_) fun q hq _ => ?_
      · exact ⟨by simp, by simp, fun hb => by simp [isBlank] at hb⟩
      · simpa using fun e => by rw [e] at hq; cases hq
    exact closed_of_reads hread
  · -- a literal does not end in a space
    exfalso
    cases kind with
    | comment => exact hc (t ++ t₁) (by simp)
    | literal =>
      have h1 : pieces (t ++ (s₂ ++ r)) = .region .literal (t ++ t₁) :: (t₂.map .code ++ pieces r) := by
        have h2 : pieces (textOf ms ++ (t ++ (s₂ ++ r))) =
            ms ++ (.region .literal (t ++ t₁) :: (t₂.map .code ++ pieces r)) := by
          have h3 : Text.trimEnd (Text.trimStart a) ++ s₂ ++ r = textOf ms ++ (t ++ (s₂ ++ r)) := by
            rw [htm]; simp
          rw [← h3, h']
          simp
        rw [hms] at h2
        exact List.append_cancel_left h2
      obtain ⟨c, x, rfl⟩ := List.exists_cons_of_ne_nil ht
      rw [List.cons_append] at h1
      obtain ⟨n, hreg, htake, -⟩ := pieces_eq_region h1
      rcases regionTail?_cases hreg with ⟨-, hlit⟩ | ⟨hk, -⟩
      · obtain ⟨hq, hl⟩ := getLast?_of_literalTail? hlit
        rw [List.cons_append, List.cons.injEq] at htake
        rw [← htake.2, List.getLast?_append, List.getLast?_eq_some_getLast hne, Option.some_or] at hl
        have hsp := hs₂ _ (by rw [hss]; exact List.mem_append_left _ (List.getLast_mem hne))
        rw [Option.some.inj hl] at hsp
        have h2 := (regionTail?_eq_none_iff.mp (regionTail?_of_isSpace hsp [c])).1
        exact literalTail?_eq_none_iff.mp h2 hq List.mem_cons_self
      · cases hk

/-- Trimming takes code away from a text without comments. -/
theorem Reads.trim_of_no_comment {a r : Text} {qs : List Piece} (h : Reads a r qs) (hr : r ≠ [])
    (hc : ∀ t, .region .comment t ∉ qs) :
    ∃ s₁ s₂ ps, (∀ c ∈ s₁, isSpace c = true) ∧ (∀ c ∈ s₂, isSpace c = true) ∧ Reads (Text.trim a) [')'] ps ∧
      qs = s₁.map .code ++ (ps ++ s₂.map .code) ∧ a = s₁ ++ Text.trim a ++ s₂ := by
  obtain ⟨s₁, s₂, ps, ha, hs₁, hs₂, hps, hcases⟩ := h.trim hr (h.closed_trim hr hc)
  rcases hcases with hq | ⟨ms, t₁, t₂, -, -, rfl⟩
  · exact ⟨s₁, s₂, ps, hs₁, hs₂, hps, hq, ha⟩
  · exact absurd (by simp) (hc ('-' :: '-' :: t₁))

/-! ## Reading a text alone -/

/-- What is read as `ps` in front of a text is read so alone, but for two dashes at its end: these are a comment at the
end of a text. -/
theorem Reads.alone {a r : Text} {ps : List Piece} (h : Reads a r ps) :
    pieces a = ps ∨ ∃ ms, ps = ms ++ [.code '-', .code '-'] ∧ pieces a = ms ++ [.region .comment ['-', '-']] := by
  induction ps generalizing a with
  | nil =>
    rw [← h.textOf_eq]
    exact Or.inl pieces_nil
  | cons p ps ih =>
    have ht := h.textOf_eq
    cases a with
    | nil => exact absurd (textOf_eq_nil h ht) (by simp)
    | cons c a =>
      have h' : pieces (c :: (a ++ r)) = p :: (ps ++ pieces r) := h
      cases hc : regionTail? c (a ++ r) with
      | some kn =>
        obtain ⟨kind, n⟩ := kn
        rw [pieces_region hc, List.cons.injEq] at h'
        obtain ⟨rfl, h'⟩ := h'
        have hn : n ≤ a.length := by
          have hle := lt_of_regionTail? hc
          have hlen := congrArg List.length ht
          simp only [textOf_cons, Piece.text, List.length_append, List.length_cons, List.length_take] at hlen hle
          omega
        rw [List.drop_append_of_le_length hn] at h'
        rw [pieces_region (regionTail?_alone hc hn), List.take_append_of_le_length hn]
        rcases ih h' with he | ⟨ms, rfl, he⟩
        · exact Or.inl (by rw [he])
        · exact Or.inr ⟨_ :: ms, rfl, by rw [he]; rfl⟩
      | none =>
        rw [pieces_code hc, List.cons.injEq] at h'
        obtain ⟨rfl, h'⟩ := h'
        by_cases hdash : c = '-' ∧ a = ['-']
        · obtain ⟨rfl, rfl⟩ := hdash
          have hsecond : pieces ['-'] = [.code '-'] := by
            rw [pieces_code (by decide), pieces_nil]
          have hcomment : regionTail? '-' ['-'] = some (.comment, 1) := by decide
          rcases ih h' with he | ⟨ms, rfl, he⟩
          · refine Or.inr ⟨[], by rw [← he, hsecond]; rfl, ?_⟩
            rw [pieces_region hcomment]
            simp
          · -- no two dashes are left
            have hlast := congrArg List.getLast? (hsecond.symm.trans he)
            simp at hlast
        · rw [pieces_code (regionTail?_alone_none hc hdash)]
          rcases ih h' with he | ⟨ms, rfl, he⟩
          · exact Or.inl (by rw [he])
          · exact Or.inr ⟨.code c :: ms, rfl, by rw [he]; rfl⟩

/-- The pieces up to a code character other than a dash are read so alone. -/
theorem Reads.alone_of_code {a r : Text} {ps qs : List Piece} {d : Char} (h : Reads a r (ps ++ .code d :: qs))
    (hd : d ≠ '-') : ∃ rs, pieces a = ps ++ .code d :: rs := by
  rcases h.alone with he | ⟨ms, hms, he⟩
  · exact ⟨qs, he⟩
  · rcases append_eq_append_cons hms.symm with ⟨xs, -, hx⟩ | ⟨xs, rfl, -⟩
    · have hmem : Piece.code d ∈ [.code '-', .code '-'] := by rw [hx]; simp
      simp only [List.mem_cons, Piece.code.injEq, List.not_mem_nil, or_false, or_self] at hmem
      exact absurd hmem hd
    · exact ⟨xs ++ [.region .comment ['-', '-']], by rw [he]; simp⟩

end SqlDialect
