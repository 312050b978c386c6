import SqlDialect.Region
import SqlDialect.Translator
import SqlDialect.Proofs.Comment

/-!
# How the embedded dialect reads a translated statement

The embedded dialect has its own rule for comments: two dashes open one whatever stands behind them, and `#` opens
none. Literals and block comments are the same. Translated statements have no `#` comment, so the two readings of one
part exactly where two dashes stand in code with no blank behind them, such as in `a--b`.

* `cut_textOf`: from a place between two pieces on, a text is cut as by itself, whatever opens its regions.
* `regions_translate_iff`: when a translated statement has the same literals and comments in both dialects.
-/

namespace SqlDialect.Embedded

/-! ## The other reading -/

/-- How many characters after `c` belong to the comment that `c` opens in the embedded dialect, if it opens one. -/
def commentTail? (c : Char) (rest : Text) : Option Nat :=
  match c, rest with
  | '/', '*' :: body => some (blockLength body + 1)
  | '-', '-' :: body => some (lineLength body + 1)
  | _, _ => none

/-- The kind of region that `c` opens in the embedded dialect and the number of its characters after `c`. -/
def regionTail? (c : Char) (rest : Text) : Option (RegionKind × Nat) :=
  match literalTail? c rest with
  | some n => some (.literal, n)
  | none => (commentTail? c rest).map (RegionKind.comment, ·)

/-- The pieces of a text in which `tail?` tells the regions. -/
def cut (tail? : Char → Text → Option (RegionKind × Nat)) (text : Text) : List Piece :=
  match text with
  | [] => []
  | c :: rest =>
    match tail? c rest with
    | some (kind, n) => .region kind (c :: rest.take n) :: cut tail? (rest.drop n)
    | none => .code c :: cut tail? rest
termination_by text.length
decreasing_by all_goals simp only [List.length_drop, List.length_cons]; omega

/-- The literals and comments of a text in the embedded dialect. -/
def regions (text : Text) : List Region := regionsFrom 0 (cut regionTail? text)

/-! ## Cutting by any rule -/

section Cut

variable {tail? : Char → Text → Option (RegionKind × Nat)} {c : Char} {rest text : Text}

theorem cut_region {kind : RegionKind} {n : Nat} (h : tail? c rest = some (kind, n)) :
    cut tail? (c :: rest) = .region kind (c :: rest.take n) :: cut tail? (rest.drop n) := by
  rw [cut, h]

theorem cut_code (h : tail? c rest = none) : cut tail? (c :: rest) = .code c :: cut tail? rest := by
  rw [cut, h]

theorem textOf_cut (tail? : Char → Text → Option (RegionKind × Nat)) (text : Text) :
    textOf (cut tail? text) = text := by
  fun_induction cut tail? text with
  | case1 => rfl
  | case2 c rest kind n h ih => simp [Piece.text, ih]
  | case3 c rest h ih => simp [Piece.text, ih]

/-- The pieces of a text in the networked dialect are cut by its own rule. -/
theorem pieces_eq_cut (text : Text) : pieces text = cut SqlDialect.regionTail? text := by
  fun_induction pieces text with
  | case1 => simp [cut]
  | case2 c rest kind n h ih => rw [cut_region h, ih]
  | case3 c rest h ih => rw [cut_code h, ih]

/-- From a place between two pieces on, a text is cut as by itself. -/
theorem cut_textOf {ps qs : List Piece} (h : cut tail? text = ps ++ qs) : cut tail? (textOf qs) = qs := by
  induction ps generalizing text with
  | nil =>
    rw [List.nil_append] at h
    rw [← h, textOf_cut]
  | cons p ps ih =>
    cases text with
    | nil => simp [cut] at h
    | cons c rest =>
      cases hr : tail? c rest with
      | none =>
        rw [cut_code hr, List.cons_append, List.cons.injEq] at h
        exact ih h.2
      | some tail =>
        obtain ⟨kind, n⟩ := tail
        rw [cut_region hr, List.cons_append, List.cons.injEq] at h
        exact ih h.2

/-- No piece is empty. -/
theorem text_ne_nil_of_mem_cut {p : Piece} (h : p ∈ cut tail? text) : p.text ≠ [] := by
  fun_induction cut tail? text with
  | case1 => cases h
  | case2 c rest kind n hr ih =>
    rcases List.mem_cons.mp h with rfl | h
    · simp [Piece.text]
    · exact ih h
  | case3 c rest hr ih =>
    rcases List.mem_cons.mp h with rfl | h
    · simp [Piece.text]
    · exact ih h

end Cut

/-! ## Regions tell the pieces -/

theorem le_start_of_mem {start : Nat} {ps : List Piece} {r : Region} (h : r ∈ regionsFrom start ps) :
    start ≤ r.start := by
  fun_induction regionsFrom start ps with
  | case1 => cases h
  | case2 start c ps ih => exact Nat.le_of_succ_le (ih h)
  | case3 start kind t ps ih =>
    rcases List.mem_cons.mp h with rfl | h
    · exact Nat.le_refl _
    · exact Nat.le_trans (Nat.le_add_right _ _) (ih h)

/-- A region does not start where code stands. -/
theorem regionsFrom_code_ne {start : Nat} {c : Char} {kind : RegionKind} {t : Text} {ps qs : List Piece} :
    regionsFrom start (.code c :: ps) ≠ regionsFrom start (.region kind t :: qs) := by
  intro h
  have hm : ⟨kind, start, start + t.length⟩ ∈ regionsFrom (start + 1) ps := by
    rw [regionsFrom, regionsFrom] at h
    rw [h]
    exact List.mem_cons_self
  exact absurd (le_start_of_mem hm) (by simp)

/-- Two cuts of one text with the same regions are the same. -/
theorem eq_of_regionsFrom_eq {start : Nat} {ps qs : List Piece} (ht : textOf ps = textOf qs)
    (hr : regionsFrom start ps = regionsFrom start qs) (hp : ∀ p ∈ ps, p.text ≠ []) (hq : ∀ q ∈ qs, q.text ≠ []) :
    ps = qs := by
  induction ps generalizing start qs with
  | nil =>
    cases qs with
    | nil => rfl
    | cons q qs => exact absurd (List.append_eq_nil_iff.mp ht.symm).1 (hq q List.mem_cons_self)
  | cons p ps ih =>
    have hp' : ∀ p ∈ ps, p.text ≠ [] := fun p hm => hp p (List.mem_cons_of_mem _ hm)
    cases qs with
    | nil => exact absurd (List.append_eq_nil_iff.mp ht).1 (hp p List.mem_cons_self)
    | cons q qs =>
      have hq' : ∀ q ∈ qs, q.text ≠ [] := fun q hm => hq q (List.mem_cons_of_mem _ hm)
      cases p with
      | code c =>
        cases q with
        | code d =>
          rw [textOf_cons, textOf_cons, Piece.text, Piece.text, List.singleton_append, List.singleton_append,
            List.cons.injEq] at ht
          rw [ht.1, ih ht.2 hr hp' hq']
        | region kind t => exact absurd hr regionsFrom_code_ne
      | region kind t =>
        cases q with
        | code d => exact absurd hr.symm regionsFrom_code_ne
        | region kind' t' =>
          rw [regionsFrom, regionsFrom, List.cons.injEq, Region.mk.injEq] at hr
          obtain ⟨⟨rfl, -, hlen⟩, hr⟩ := hr
          obtain ⟨htext, ht'⟩ :=
            List.append_inj (show t ++ textOf ps = t' ++ textOf qs from ht) (Nat.add_left_cancel hlen)
          subst htext
          rw [ih ht' hr hp' hq']

/-! ## Where the two dialects agree -/

/-- A dash that is code stands in front of a dash. -/
def HasDoubleDash (text : Text) : Prop :=
  ∃ ps qs, pieces text = ps ++ .code '-' :: qs ∧ (textOf qs).head? = some '-'

/-- A region of the networked dialect that does not start with `#` is one of the embedded dialect. -/
theorem regionTail?_of_region {c : Char} {rest : Text} {kind : RegionKind} {n : Nat}
    (h : SqlDialect.regionTail? c rest = some (kind, n)) (hc : c ≠ '#') : regionTail? c rest = some (kind, n) := by
  unfold regionTail?
  rcases regionTail?_cases h with ⟨rfl, hl⟩ | ⟨rfl, hcomment⟩
  · rw [hl]
  · have hl : literalTail? c rest = none :=
      literalTail?_eq_none_iff.mpr fun hq => absurd hq (by simp [isQuote_of_commentTail? hcomment])
    suffices commentTail? c rest = some n by rw [hl, this]; rfl
    unfold SqlDialect.commentTail? at hcomment
    split at hcomment
    · exact absurd rfl hc
    · exact hcomment
    · split at hcomment
      · exact hcomment
      · cases hcomment
    · cases hcomment

/-- Code of the networked dialect is code of the embedded dialect, if it is not the first of two dashes. -/
theorem regionTail?_of_code {c : Char} {rest : Text} (h : SqlDialect.regionTail? c rest = none)
    (hdash : c = '-' → rest.head? ≠ some '-') : regionTail? c rest = none := by
  obtain ⟨hl, hcomment⟩ := regionTail?_eq_none_iff.mp h
  rw [commentTail?_eq_none_iff] at hcomment
  suffices commentTail? c rest = none by rw [regionTail?, hl, this]; rfl
  unfold commentTail?
  split
  · exact absurd rfl (hcomment.2.1 rfl)
  · exact absurd rfl (hdash rfl)
  · rfl

/-- Without `#` comments and double dashes in code, both dialects read the same pieces. -/
theorem cut_eq_pieces {text : Text} (hhash : ∀ kind t, .region kind t ∈ pieces text → t.head? ≠ some '#')
    (hdash : ¬ HasDoubleDash text) : cut regionTail? text = pieces text := by
  fun_induction pieces text with
  | case1 => simp [cut]
  | case2 c rest kind n hr ih =>
    have hc : c ≠ '#' := fun e => hhash _ _ List.mem_cons_self (by rw [e]; rfl)
    rw [cut_region (regionTail?_of_region hr hc), ih fun k t hm => hhash k t (List.mem_cons_of_mem _ hm)]
    rintro ⟨ps, qs, h, hhead⟩
    exact hdash ⟨.region kind (c :: rest.take n) :: ps, qs, by rw [pieces_region hr, h]; rfl, hhead⟩
  | case3 c rest hr ih =>
    have hc : c = '-' → rest.head? ≠ some '-' := by
      rintro rfl hhead
      exact hdash ⟨[], pieces rest, by rw [pieces_code hr]; rfl, by rw [textOf_pieces, hhead]⟩
    rw [cut_code (regionTail?_of_code hr hc), ih fun k t hm => hhash k t (List.mem_cons_of_mem _ hm)]
    rintro ⟨ps, qs, h, hhead⟩
    exact hdash ⟨.code c :: ps, qs, by rw [pieces_code hr, h]; rfl, hhead⟩

/-- Two dashes that are code open a comment in the embedded dialect. -/
theorem cut_ne_pieces {text : Text} (hdash : HasDoubleDash text) : cut regionTail? text ≠ pieces text := by
  intro he
  obtain ⟨ps, qs, h, hhead⟩ := hdash
  obtain ⟨rest, hrest⟩ := List.head?_eq_some_iff.mp hhead
  have hcut := cut_textOf (he.trans h)
  have hopen : regionTail? '-' ('-' :: rest) = some (.comment, lineLength rest + 1) := rfl
  rw [textOf_cons, Piece.text, hrest, List.singleton_append, cut_region hopen] at hcut
  cases hcut

/-- **The two readings of a translated statement.** The embedded dialect sees the literals and comments that the
networked dialect sees exactly if no dash in code stands in front of another dash. -/
theorem regions_translate_iff {tr : Translator} {query out : Text} (h : tr.translate query = .ok out) :
    regions out = SqlDialect.regions out ↔ ¬ HasDoubleDash out := by
  have hhash : ∀ kind t, .region kind t ∈ pieces out → t.head? ≠ some '#' := by
    unfold Translator.translate Translator.run at h
    cases ht : Translator.convertTimes query with
    | error e => rw [ht] at h; cases h
    | ok text =>
      rw [ht] at h
      rw [← Except.ok.inj h]
      exact fun kind t => Comment.ne_hash_of_mem
  constructor
  · intro hregions hdash
    refine cut_ne_pieces hdash (eq_of_regionsFrom_eq ?_ hregions (fun p hp => text_ne_nil_of_mem_cut hp) fun p hp => ?_)
    · rw [textOf_cut, textOf_pieces]
    · rw [pieces_eq_cut] at hp
      exact text_ne_nil_of_mem_cut hp
  · intro hdash
    rw [regions, SqlDialect.regions, cut_eq_pieces hhash hdash]

/-- The difference of a negated column is cut off behind its first operand. -/
theorem regions_ne_double_dash :
    let query := "select a--b".toList
    Translator.translate {} query = .ok query ∧ SqlDialect.regions query = [] ∧
      regions query ≠ SqlDialect.regions query := by
  intro query
  have hrun : Translator.run {} query = .ok query := eq_ok_of_toOption (by decide +kernel)
  have hout : Translator.translate {} query = .ok query := by rw [Translator.translate, hrun]; rfl
  have hdash : HasDoubleDash query := ⟨"select a".toList.map .code, "-b".toList.map .code, by decide +kernel, rfl⟩
  exact ⟨hout, by decide +kernel, fun he => (regions_translate_iff hout).mp he hdash⟩

end SqlDialect.Embedded
