import SqlDialect.Proofs.Interval.Operand

/-!
# Places at one level

A search along the top level of a text looks into no literal, no comment and no bracket. Position `j` is on the level of
position `i` if the pieces between them are balanced, and `NoneLevel p` says that a search for `p` finds nothing.

* `level_iff`, `level_code_iff`, `level_to_iff`: between the positions on a level stand balanced pieces.
* `NoneLevel.append`, `noneLevel_delimiter`, `noneLevel_word`: what a search passes over.
* `noneLevel_iff`: the search by positions.
-/

namespace SqlDialect.Interval

/-! ## Pieces between two positions -/

/-- No piece of a text is empty. -/
theorem length_pos_of_mem_pieces {text : Text} {p : Piece} (h : p ∈ pieces text) : 0 < p.text.length := by
  cases p with
  | code c => exact Nat.one_pos
  | region kind t => exact List.length_pos_iff.mpr (region_ne_nil h)

/-- The pieces that end within the first `n` characters. -/
def piecesWithin : Nat → List Piece → List Piece
  | _, [] => []
  | n, p :: ps => if p.text.length ≤ n then p :: piecesWithin (n - p.text.length) ps else []

/-- The pieces of a text from position `i` up to position `j`. -/
def piecesBetween (T : Text) (i j : Nat) : List Piece := piecesWithin (j - i) (pieces (T.drop i))

theorem piecesWithin_prefix (n : Nat) (ps : List Piece) : piecesWithin n ps <+: ps := by
  induction ps generalizing n with
  | nil => exact List.nil_prefix
  | cons p ps ih =>
    rw [piecesWithin]
    split
    · exact List.cons_prefix_cons.mpr ⟨rfl, ih _⟩
    · exact List.nil_prefix

theorem piecesWithin_append {ps qs : List Piece} (hq : ∀ q ∈ qs.head?, q.text ≠ []) :
    piecesWithin (textOf ps).length (ps ++ qs) = ps := by
  induction ps with
  | nil =>
    cases qs with
    | nil => rfl
    | cons q qs =>
      have hpos := List.length_pos_iff.mpr (hq q rfl)
      rw [List.nil_append, piecesWithin, if_neg (by simp only [textOf_nil, List.length_nil]; omega)]
  | cons p ps ih =>
    rw [List.cons_append, textOf_cons, List.length_append, piecesWithin, if_pos (Nat.le_add_right ..),
      Nat.add_sub_cancel_left, ih]

theorem piecesBetween_eq {T : Text} {i j : Nat} {ps qs : List Piece} (hp : pieces (T.drop i) = ps ++ qs)
    (hj : i + (textOf ps).length = j) : piecesBetween T i j = ps := by
  rw [piecesBetween, hp, ← hj, Nat.add_sub_cancel_left]
  refine piecesWithin_append fun q hq => ?_
  have hin : q ∈ pieces (T.drop i) := hp ▸ List.mem_append_right _ (List.mem_of_head? hq)
  exact List.length_pos_iff.mp (length_pos_of_mem_pieces hin)

theorem piecesBetween_behind {T : Text} {i j : Nat} {c : Char} {gs ps qs : List Piece}
    (hp : pieces T = gs ++ .code c :: (ps ++ qs)) (hi : (textOf gs).length = i) (hj : i + 1 + (textOf ps).length = j) :
    piecesBetween T (i + 1) j = ps := by
  have hcut : pieces T = (gs ++ [.code c]) ++ (ps ++ qs) := by rw [hp]; simp
  have hlen : (textOf (gs ++ [.code c])).length = i + 1 := by rw [textOf_append, List.length_append, hi]; rfl
  have hdrop := pieces_drop hcut
  rw [hlen] at hdrop
  exact piecesBetween_eq hdrop hj

/-! ## Levels -/

/-- Position `j` stands behind whole, balanced pieces from position `i` on. -/
def Level (T : Text) (i j : Nat) : Prop :=
  i + (textOf (piecesBetween T i j)).length = j ∧ nest [] (piecesBetween T i j) = some []

instance (T : Text) (i j : Nat) : Decidable (Level T i j) :=
  inferInstanceAs (Decidable (_ ∧ _))

theorem level_iff {T : Text} {i j : Nat} :
    Level T i j ↔ ∃ zs rs, pieces (T.drop i) = zs ++ rs ∧ i + (textOf zs).length = j ∧ nest [] zs = some [] := by
  constructor
  · rintro ⟨hj, hn⟩
    obtain ⟨rs, hrs⟩ := piecesWithin_prefix (j - i) (pieces (T.drop i))
    exact ⟨_, rs, hrs.symm, hj, hn⟩
  · rintro ⟨zs, rs, hp, hj, hn⟩
    rw [Level, piecesBetween_eq hp hj]
    exact ⟨hj, hn⟩

/-- Code at position `k` on the level of position `start`, in front of position `stop`. -/
def OnLevel (T : Text) (start stop k : Nat) : Prop :=
  start ≤ k ∧ k < stop ∧ regionAt? (regions T) k = none ∧ Level T start k

instance (T : Text) (start stop k : Nat) : Decidable (OnLevel T start stop k) :=
  inferInstanceAs (Decidable (_ ∧ _ ∧ _ ∧ _))

/-- A character that is a piece of its own stands in no region. -/
theorem code_at {T : Text} {ms ns : List Piece} {c : Char} {i : Nat} (hp : pieces T = ms ++ .code c :: ns)
    (hi : (textOf ms).length = i) : T[i]? = some c ∧ regionAt? (regions T) i = none := by
  constructor
  · rw [← List.head?_drop, drop_of_pieces hp hi]
    rfl
  · subst hi
    exact regionAt?_piece hp (Nat.le_refl _) (Nat.lt_succ_self _)

/-- The code on the level of a place: it stands behind balanced pieces. -/
theorem level_code_iff {T : Text} {fs zs rs : List Piece} {k : Nat} (hp : pieces T = fs ++ (zs ++ rs))
    (hk : k < (textOf (fs ++ zs)).length) :
    regionAt? (regions T) k = none ∧ Level T (textOf fs).length k ↔
      ∃ ms c ns, zs = ms ++ .code c :: ns ∧ (textOf (fs ++ ms)).length = k ∧ nest [] ms = some [] := by
  have hfrom : pieces (T.drop (textOf fs).length) = zs ++ rs := by rw [pieces_drop hp]
  constructor
  · rintro ⟨hcode, hlevel⟩
    obtain ⟨ms, rest, hms, hlen, hn⟩ := level_iff.mp hlevel
    rw [textOf_append, List.length_append] at hk
    have hcut : pieces T = (fs ++ ms) ++ rest := by rw [hp, ← hfrom, hms, List.append_assoc]
    obtain ⟨ns, rfl, hrest⟩ : ∃ ns, zs = ms ++ ns ∧ rest = ns ++ rs := by
      rcases List.append_eq_append_iff.mp (hfrom.symm.trans hms) with ⟨z, rfl, -⟩ | ⟨z, rfl, h⟩
      · rw [textOf_append, List.length_append] at hlen
        omega
      · exact ⟨z, rfl, h⟩
    have hat : (textOf (fs ++ ms)).length = k := by rw [textOf_append, List.length_append, hlen]
    cases ns with
    | nil =>
      rw [List.append_nil] at hk
      omega
    | cons p ns =>
      rw [hrest, List.cons_append] at hcut
      have hpos := length_pos_of_mem_pieces (hcut ▸ List.mem_append_right _ List.mem_cons_self)
      have hregion := regionAt?_piece (i := k) hcut (Nat.le_of_eq hat) (by omega)
      cases p with
      | code c => exact ⟨ms, c, ns, rfl, hat, hn⟩
      | region kind t =>
        rw [hcode] at hregion
        cases hregion
  · rintro ⟨ms, c, ns, rfl, hat, hn⟩
    have hcut : pieces T = (fs ++ ms) ++ .code c :: (ns ++ rs) := by rw [hp]; simp
    refine ⟨(code_at hcut hat).2, level_iff.mpr ⟨ms, .code c :: (ns ++ rs), ?_, ?_, hn⟩⟩
    · rw [hfrom]
      simp
    · rw [← hat, textOf_append, List.length_append]

/-- The code from which on the pieces up to a place are balanced. -/
theorem level_to_iff {T : Text} {ps rs : List Piece} {k : Nat} (hp : pieces T = ps ++ rs)
    (hk : k < (textOf ps).length) :
    regionAt? (regions T) k = none ∧ Level T k (textOf ps).length ↔
      ∃ ms c ns, ps = ms ++ .code c :: ns ∧ (textOf ms).length = k ∧ nest [] (.code c :: ns) = some [] := by
  constructor
  · rintro ⟨hcode, hlevel⟩
    have hlt : k ≤ T.length := by
      have := congrArg List.length (congrArg textOf hp)
      rw [textOf_pieces, textOf_append, List.length_append] at this
      omega
    obtain ⟨ms, hms, hat⟩ := cut_of_code hcode hlt
    obtain ⟨zs, rest, hzs, hlen, hn⟩ := level_iff.mp hlevel
    rw [hzs] at hms
    have hps : ps = ms ++ zs := by
      refine pieces_prefix_unique hp (hms.trans (List.append_assoc ..).symm) ?_
      rw [textOf_append, List.length_append, hat, hlen]
    cases zs with
    | nil =>
      rw [textOf_nil, List.length_nil] at hlen
      omega
    | cons p zs =>
      cases p with
      | code c => exact ⟨ms, c, zs, hps, hat, hn⟩
      | region kind t =>
        have hpos := length_pos_of_mem_pieces (hms ▸ List.mem_append_right _ List.mem_cons_self)
        have hregion := regionAt?_piece (i := k) hms (Nat.le_of_eq hat)
          (by rw [hat]; exact Nat.lt_add_of_pos_right hpos)
        rw [hcode] at hregion
        cases hregion
  · rintro ⟨ms, c, ns, rfl, hat, hn⟩
    have hcut : pieces T = ms ++ .code c :: (ns ++ rs) := by rw [hp]; simp
    refine ⟨(code_at hcut hat).2, level_iff.mpr ⟨.code c :: ns, rs, ?_, ?_, hn⟩⟩
    · rw [← hat, pieces_drop hcut]
      rfl
    · rw [textOf_append, List.length_append, hat]

/-! ## Searching along a level -/

variable {p : Option Char → Text → Bool} {before : Option Char}

/-- At no character of code at the top level of the pieces, between `before` and the text `r`, does `p` hold of the
character in front and the text from there on. -/
def NoneLevel (p : Option Char → Text → Bool) (before : Option Char) (ps : List Piece) (r : Text) : Prop :=
  ∀ ms c ns, ps = ms ++ .code c :: ns → nest [] ms = some [] →
    p ((textOf ms).getLast?.or before) (c :: (textOf ns ++ r)) = false

theorem NoneLevel.nil {r : Text} : NoneLevel p before [] r := fun ms c ns he => absurd he (by simp)

theorem NoneLevel.append {ps qs : List Piece} {r : Text} (hp : NoneLevel p before ps (textOf qs ++ r))
    (hn : nest [] ps = some []) (hq : NoneLevel p ((textOf ps).getLast?.or before) qs r) :
    NoneLevel p before (ps ++ qs) r := by
  intro ms c ns he hms
  rcases append_eq_append_cons he with ⟨zs, rfl, hzs⟩ | ⟨zs, rfl, rfl⟩
  · rw [textOf_append, List.getLast?_append, Option.or_assoc]
    exact hq zs c ns hzs (nest_rest hms hn)
  · have := hp ms c zs rfl hms
    rwa [← List.append_assoc, ← textOf_append] at this

theorem noneLevel_region {kind : RegionKind} {t r : Text} : NoneLevel p before [.region kind t] r := by
  intro ms c ns he
  cases ms <;> simp at he

theorem noneLevel_code {c : Char} {r : Text} (h : p before (c :: r) = false) : NoneLevel p before [.code c] r := by
  intro ms d ns he _
  cases ms with
  | nil =>
    rw [List.nil_append, List.cons.injEq, Piece.code.injEq] at he
    obtain ⟨rfl, rfl⟩ := he
    exact h
  | cons q ms => simp at he

/-- Behind the first character of a word nothing is found that starts with a word. -/
theorem noneLevel_word (hp : ∀ b t, isWord b = true → p (some b) t = false) {v r : Text}
    (hv : ∀ c ∈ v, isWord c = true) (h : p before (v ++ r) = false) : NoneLevel p before (v.map .code) r := by
  intro ms c ns he _
  rcases List.eq_nil_or_concat ms with rfl | ⟨ms, q, rfl⟩
  · have htext := congrArg textOf he
    rw [textOf_map_code, List.nil_append, textOf_cons, Piece.text, List.singleton_append] at htext
    rw [htext] at h
    exact h
  · rw [List.concat_eq_append] at he ⊢
    have hq : q ∈ v.map Piece.code := by rw [he]; simp
    obtain ⟨d, hd, rfl⟩ := List.mem_map.mp hq
    rw [textOf_append, List.getLast?_append]
    exact hp d _ (hv d hd)

/-- Within a delimiter and what it encloses nothing stands at the top level. -/
theorem noneLevel_delimiter {c : Char} {rest r x : Text} {qs : List Piece} {n : Nat}
    (hp : ∀ b d t, (isQuote d || isOpener d) = true → p b (d :: t) = false)
    (hc : (isQuote c || isOpener c) = true) (h : closingOffset? (c :: rest) = some n)
    (hq : pieces (c :: rest) = qs ++ pieces r) (hlen : (textOf qs).length = n + 1) : NoneLevel p before qs x := by
  intro ms d ns he hms
  rcases List.eq_nil_or_concat ms with rfl | ⟨ms', q, hms'⟩
  · -- nothing starts with the delimiter itself
    rw [he, List.nil_append, List.cons_append] at hq
    obtain ⟨rfl, -, -⟩ := pieces_eq_code hq
    exact hp _ _ _ hc
  · -- a part of it that is balanced would end behind its partner
    have hne : ms ≠ [] := by rw [hms']; simp
    obtain ⟨m, hclosing⟩ := closing_of_balanced hne hms (Nat.le_refl _)
    have hrest : pieces (c :: rest) = ms ++ pieces (textOf (.code d :: ns) ++ r) := by
      have hbehind : pieces (c :: rest) = ms ++ (.code d :: ns ++ pieces r) := by rw [hq, he]; simp
      rw [hbehind]
      have := pieces_textOf hbehind
      rw [textOf_append, textOf_pieces] at this
      rw [this]
    obtain ⟨hoff, hlt⟩ := hclosing c rest _ hrest (by simpa using hc)
    rw [h, Option.some.injEq] at hoff
    rw [he, textOf_append, textOf_cons, List.length_append, List.length_append] at hlen
    have hone : (Piece.code d).text.length = 1 := rfl
    omega

/-- **The search along a level**, by positions of the text. -/
theorem noneLevel_iff {T : Text} {fs zs rs : List Piece} (hp : pieces T = fs ++ (zs ++ rs)) :
    NoneLevel p (textOf fs).getLast? zs (textOf rs) ↔
      ∀ k, OnLevel T (textOf fs).length (textOf (fs ++ zs)).length k → p (T.take k).getLast? (T.drop k) = false := by
  have hat : ∀ {ms c ns}, zs = ms ++ .code c :: ns → (T.take (textOf (fs ++ ms)).length).getLast? =
      (textOf ms).getLast?.or (textOf fs).getLast? ∧
        T.drop (textOf (fs ++ ms)).length = c :: (textOf ns ++ textOf rs) := by
    rintro ms c ns rfl
    have hcut : pieces T = (fs ++ ms) ++ .code c :: (ns ++ rs) := by rw [hp]; simp
    rw [take_of_pieces hcut rfl, drop_of_pieces hcut rfl, textOf_append fs, List.getLast?_append, textOf_cons,
      textOf_append ns]
    exact ⟨rfl, rfl⟩
  constructor
  · rintro h k ⟨-, hk, hlevel⟩
    obtain ⟨ms, c, ns, hzs, rfl, hn⟩ := (level_code_iff hp hk).mp hlevel
    rw [(hat hzs).1, (hat hzs).2]
    exact h ms c ns hzs hn
  · intro h ms c ns hzs hn
    have hle : (textOf fs).length ≤ (textOf (fs ++ ms)).length := by
      rw [textOf_append, List.length_append]
      exact Nat.le_add_right ..
    have hlt : (textOf (fs ++ ms)).length < (textOf (fs ++ zs)).length := by
      rw [hzs]
      simp [Piece.text]
    rw [← (hat hzs).1, ← (hat hzs).2]
    exact h _ ⟨hle, hlt, (level_code_iff hp hlt).mpr ⟨ms, c, ns, hzs, rfl, hn⟩⟩

end SqlDialect.Interval
