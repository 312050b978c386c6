import Mathlib.Data.List.Induction
import SqlDialect.Proofs.WellFormed
import SqlDialect.Proofs.Interval.Decomposition

/-!
# The operand before a sign

The base of an interval expression is sought within an operand: what stands between the sign and the bracket, the
separator or the start of the text in front of it. In a text whose brackets match, an operand is made of balanced
pieces, whatever stands in front of it, and so is the base.

* `openingIn_balanced`, `boundaryBefore_operand`: the search to the left passes over balanced pieces.
* `exists_operand`: every place in a text stands behind an operand.
* `delimiter_within`, `stopWord_within`, `code_within`: what the search for stop words passes over in balanced pieces.
-/

namespace SqlDialect.Interval

/-! ## Passing over balanced pieces -/

theorem marksOf_append (ps qs : List Piece) : marksOf (ps ++ qs) = marksOf ps ++ marksOf qs := by
  induction ps with
  | nil => rfl
  | cons p ps ih =>
    cases p with
    | code c => simp [marksOf, ih]
    | region kind t => simp [marksOf, ih]

/-- The marks of some pieces from the right to the left. -/
def marksBack (ps : List Piece) : List Mark := (marksOf ps).reverse

@[simp] theorem marksBack_nil : marksBack [] = [] := rfl

theorem marksBack_append (ps qs : List Piece) : marksBack (ps ++ qs) = marksBack qs ++ marksBack ps := by
  rw [marksBack, marksOf_append, List.reverse_append]
  rfl

theorem marksBack_code (c : Char) : marksBack [.code c] = [⟨c, true⟩] := rfl

theorem mem_marksBack_region {kind : RegionKind} {t : Text} {m : Mark} (h : m ∈ marksBack [.region kind t]) :
    m.isCode = false := by
  simp only [marksBack, marksOf, List.append_nil, List.mem_reverse, List.mem_map] at h
  obtain ⟨c, -, rfl⟩ := h
  rfl

theorem length_marksBack (ps : List Piece) : (marksBack ps).length = (textOf ps).length := by
  rw [marksBack, List.length_reverse, ← map_char_marksOf, List.length_map]

theorem openingIn_regions {ms : List Mark} (h : ∀ m ∈ ms, m.isCode = false) (stack : List Char) (before : List Mark) :
    openingIn stack (ms ++ before) = openingIn stack before := by
  induction ms with
  | nil => rfl
  | cons m ms ih =>
    obtain ⟨c, code⟩ := m
    obtain rfl : code = false := h _ List.mem_cons_self
    rw [List.cons_append, openingIn, ih fun m hm => h m (List.mem_cons_of_mem _ hm)]

theorem boundaryBefore_regions {ms : List Mark} (h : ∀ m ∈ ms, m.isCode = false) (before : List Mark) :
    boundaryBefore (ms ++ before) = boundaryBefore before := by
  induction ms with
  | nil => rfl
  | cons m ms ih =>
    obtain ⟨c, code⟩ := m
    obtain rfl : code = false := h _ List.mem_cons_self
    rw [List.cons_append, boundaryBefore, ih fun m hm => h m (List.mem_cons_of_mem _ hm)]

/-- The brackets that close the given ones. -/
def closers (s : List Char) : List Char := s.filterMap closerOf?

theorem closers_cons {o c : Char} (h : closerOf? o = some c) (s : List Char) : closers (o :: s) = c :: closers s := by
  rw [closers, List.filterMap_cons_some h]
  rfl

theorem isCloser_of_isOpener {c : Char} (h : isOpener c = true) : isCloser c = false := by
  unfold isOpener closerOf? at h
  split at h <;> first | rfl | cases h

section Code

variable {c d : Char} {stack : List Char} {before : List Mark}

theorem openingIn_closer (h : isCloser c = true) :
    openingIn stack (⟨c, true⟩ :: before) = openingIn (c :: stack) before := by
  rw [openingIn.eq_def]
  simp [h]

theorem openingIn_opener (h : closerOf? c = some d) : openingIn (d :: stack) (⟨c, true⟩ :: before) =
    if stack.isEmpty then some before.length else openingIn stack before := by
  have hc : isCloser c = false := isCloser_of_isOpener (by rw [isOpener, h]; rfl)
  rw [openingIn.eq_def]
  simp [hc, h]

theorem openingIn_code (ho : isOpener c = false) (hc : isCloser c = false) :
    openingIn stack (⟨c, true⟩ :: before) = openingIn stack before := by
  have hn : closerOf? c = none := by simpa [isOpener] using ho
  rw [openingIn.eq_def]
  simp [hc, hn]

end Code

/-- **Looking for an opening bracket.** The search to the left passes over balanced pieces, and the brackets that are
left open there are taken from those that it has met. -/
theorem openingIn_balanced {zs : List Piece} {t stack : List Char} (h : nest [] zs = some t) (hst : stack ≠ [])
    (before : List Mark) : openingIn (closers t ++ stack) (marksBack zs ++ before) = openingIn stack before := by
  induction zs using List.reverseRecOn generalizing t with
  | nil =>
    cases h
    rfl
  | append_singleton ms p ih =>
    obtain ⟨u, hms, hstep⟩ := nest_snoc_iff.mp h
    have hrec := ih hms
    rw [marksBack_append, List.append_assoc]
    cases hstep with
    | region _ kind r => rw [openingIn_regions fun m hm => mem_marksBack_region hm, hrec]
    | opener _ ho =>
      obtain ⟨d, hd⟩ := Option.isSome_iff_exists.mp ho
      rw [marksBack_code, List.singleton_append, closers_cons hd, List.cons_append, openingIn_opener hd,
        if_neg (by simp [hst]), hrec]
    | closer _ hd =>
      rw [closers_cons (closerOf?_eq_some_iff.mpr hd)] at hrec
      rw [marksBack_code, List.singleton_append, openingIn_closer (isCloser_of_openerOf? hd)]
      exact hrec
    | plain _ _ ho hcl => rw [marksBack_code, List.singleton_append, openingIn_code ho hcl, hrec]

/-- The bracket that a closing bracket behind balanced pieces closes. -/
theorem openingIn_last {zs : List Piece} {o c : Char} (h : nest [] zs = some []) (ho : openerOf? c = some o)
    (before : List Mark) : openingIn [c] (marksBack zs ++ ⟨o, true⟩ :: before) = some before.length := by
  have hd := closerOf?_eq_some_iff.mpr ho
  have hbal := openingIn_balanced h (by simp : [c] ≠ []) (⟨o, true⟩ :: before)
  rw [closers, List.filterMap_nil, List.nil_append] at hbal
  rw [hbal, openingIn_opener hd]
  rfl

/-! ## Operands -/

theorem isSeparator_of_isOpener {c : Char} (h : isOpener c = true) : isSeparator c = false := by
  unfold isOpener closerOf? at h
  split at h <;> first | rfl | cases h

theorem isSeparator_of_isCloser {c : Char} (h : isCloser c = true) : isSeparator c = false := by
  unfold isCloser openerOf? at h
  split at h <;> first | rfl | cases h

/-- Balanced pieces without a separator at their top level. -/
structure Operand (xs : List Piece) : Prop where
  nest : nest [] xs = some []
  separator : ∀ ms c ns, xs = ms ++ .code c :: ns → SqlDialect.nest [] ms = some [] → isSeparator c = false

theorem operand_nil : Operand [] := ⟨rfl, by simp⟩

theorem Operand.left {xs ys : List Piece} (h : Operand (xs ++ ys)) (hn : SqlDialect.nest [] xs = some []) :
    Operand xs := by
  refine ⟨hn, fun ms c ns he hms => ?_⟩
  rw [he] at h
  exact h.separator ms c (ns ++ ys) (by simp) hms

theorem Operand.right {xs ys : List Piece} (h : Operand (xs ++ ys)) (hn : SqlDialect.nest [] xs = some []) :
    Operand ys := by
  refine ⟨nest_rest h.nest hn, fun ms c ns he hms => ?_⟩
  apply h.separator (xs ++ ms) c ns
  · rw [he, List.append_assoc]
  · rw [nest_balanced_append hn, hms]

theorem Operand.append {xs ys : List Piece} (hx : Operand xs) (hy : Operand ys) : Operand (xs ++ ys) := by
  refine ⟨by rw [nest_balanced_append hx.nest, hy.nest], fun ms c ns he hms => ?_⟩
  rcases append_eq_append_cons he with ⟨z, rfl, hz⟩ | ⟨z, rfl, -⟩
  · rw [nest_balanced_append hx.nest] at hms
    exact hy.separator z c ns hz hms
  · exact hx.separator ms c z rfl hms

/-- A balanced piece that is no separator. -/
theorem operand_single {p : Piece} (hn : nest [] [p] = some []) (hs : ∀ c, p = .code c → isSeparator c = false) :
    Operand [p] := by
  refine ⟨hn, fun ms c ns he _ => hs c ?_⟩
  cases ms with
  | nil => exact (List.cons.inj he).1
  | cons q ms =>
    rw [List.cons_append, List.cons.injEq] at he
    exact absurd he.2 (by simp)

/-- Balanced pieces in brackets. -/
theorem operand_enclosed {zs : List Piece} {o c : Char} (hz : nest [] zs = some []) (hc : openerOf? c = some o) :
    Operand (.code o :: (zs ++ [.code c])) := by
  have ho := isOpener_of_openerOf? hc
  have hcl := isSeparator_of_isCloser (isCloser_of_openerOf? hc)
  refine ⟨nest_enclosed hz hc [], fun ms d ns he hms => ?_⟩
  cases ms with
  | nil =>
    rw [← Piece.code.inj (List.cons.inj he).1]
    exact isSeparator_of_isOpener ho
  | cons q ms =>
    rw [List.cons_append, List.cons.injEq] at he
    obtain ⟨rfl, he⟩ := he
    rw [nest_open ho] at hms
    rcases append_eq_append_cons he with ⟨z, rfl, hz'⟩ | ⟨z, rfl, -⟩
    · cases z with
      | nil =>
        rw [← Piece.code.inj (List.cons.inj hz').1]
        exact hcl
      | cons q z =>
        rw [List.cons_append, List.cons.injEq] at hz'
        exact absurd hz'.2 (by simp)
    · -- within the brackets the first of them is still open
      obtain ⟨t, ht, -⟩ := nest_prefix hz
      have hopen := nest_frame ht [o]
      rw [List.nil_append, hms] at hopen
      exact absurd (Option.some.inj hopen) (by simp)

/-- The search for the boundary passes over a bracket together with what it encloses. -/
theorem boundaryBefore_enclosed {zs : List Piece} {o d : Char} (hz : nest [] zs = some []) (hd : openerOf? d = some o)
    (before : List Mark) :
    boundaryBefore (marksBack (.code o :: (zs ++ [.code d])) ++ before) = boundaryBefore before := by
  have hcloser := isCloser_of_openerOf? hd
  have hback : marksBack (.code o :: (zs ++ [.code d])) ++ before =
      ⟨d, true⟩ :: (marksBack zs ++ ⟨o, true⟩ :: before) := by
    rw [← List.singleton_append, marksBack_append, marksBack_append, marksBack_code, marksBack_code]
    simp
  have hdrop : (marksBack zs ++ ⟨o, true⟩ :: before).drop
      ((marksBack zs ++ ⟨o, true⟩ :: before).length - before.length) = before := by
    rw [List.append_cons, List.length_append, Nat.add_sub_cancel, List.drop_left]
  rw [hback, boundaryBefore, if_neg (by simp [isQuote_of_isCloser hcloser]), if_pos hcloser, openingIn_last hz hd]
  simp only
  rw [hdrop]

/-- The search for the boundary of an operand passes over it. -/
theorem boundaryBefore_operand {xs : List Piece} (h : Operand xs) (before : List Mark) :
    boundaryBefore (marksBack xs ++ before) = boundaryBefore before := by
  refine nest_induction
    (motive := fun xs _ => Operand xs → boundaryBefore (marksBack xs ++ before) = boundaryBefore before)
    (fun _ => rfl) ?opener ?enclosed ?single h.nest h
  case opener =>
    intro ms s c hms ho _ hx
    have hopen := hx.nest
    rw [nest_append, hms, Option.bind_some, nest_open ho] at hopen
    cases hopen
  case enclosed =>
    intro qs s zs o d hqs hzs hd ih hx
    have hbal := nest_left hx.nest (nest_enclosed hzs hd [])
    rw [marksBack_append, List.append_assoc, boundaryBefore_enclosed hzs hd, ih (hx.left hbal)]
  case single =>
    intro ms s p hms hstep ih hx
    have hbal := nest_left hx.nest (nest_cons_iff.mpr ⟨[], hstep, rfl⟩)
    rw [marksBack_append, List.append_assoc]
    cases hstep with
    | region _ kind t => rw [boundaryBefore_regions fun m hm => mem_marksBack_region hm, ih (hx.left hbal)]
    | @plain _ c hq ho hc =>
      have hsep := hx.separator ms c [] rfl hbal
      rw [marksBack_code, List.singleton_append, boundaryBefore, if_neg (by simp [hq]), if_neg (by simp [hc]),
        if_neg (by simp [ho]), if_neg (by simp [hsep]), ih (hx.left hbal)]

/-- What an operand stands behind: nothing, or an opening bracket or a separator. -/
def Bounds (ps : List Piece) : Prop := ps = [] ∨ ∃ ms c, ps = ms ++ [.code c] ∧ (isOpener c = true ∨ isSeparator c = true)

/-- **The operand in front of a place.** It reaches to the last bracket that is open there, to the last separator, or
to the start of the text. -/
theorem exists_operand {ps : List Piece} {s : List Char} (h : nest [] ps = some s) :
    ∃ as xs, ps = as ++ xs ∧ Operand xs ∧ Bounds as := by
  refine nest_induction (motive := fun ps _ => ∃ as xs, ps = as ++ xs ∧ Operand xs ∧ Bounds as)
    ⟨[], [], rfl, operand_nil, Or.inl rfl⟩ ?opener ?enclosed ?single h
  case opener => exact fun ms _ c _ ho _ => ⟨ms ++ [.code c], [], by simp, operand_nil, Or.inr ⟨ms, c, rfl, Or.inl ho⟩⟩
  case enclosed =>
    -- the bracket and all that it encloses belong to the operand
    rintro _ s zs o d - hzs hd ⟨as, xs, rfl, hxs, has⟩
    exact ⟨as, xs ++ (.code o :: (zs ++ [.code d])), by simp, hxs.append (operand_enclosed hzs hd), has⟩
  case single =>
    rintro _ s p - hstep ⟨as, xs, rfl, hxs, has⟩
    by_cases hsep : ∀ c, p = .code c → isSeparator c = false
    · exact ⟨as, xs ++ [p], by simp, hxs.append (operand_single (nest_cons_iff.mpr ⟨[], hstep, rfl⟩) hsep), has⟩
    · obtain ⟨c, hc⟩ := Classical.not_forall.mp hsep
      obtain ⟨rfl, hc⟩ := Classical.not_imp.mp hc
      exact ⟨_, [], (List.append_nil _).symm, operand_nil, Or.inr ⟨as ++ xs, c, rfl, Or.inr (by simpa using hc)⟩⟩

/-- The marks in front of a place between two pieces. -/
theorem marksBefore_pieces {T : Text} {ps qs : List Piece} (h : pieces T = ps ++ qs) :
    marksBefore T (textOf ps).length = marksBack ps := by
  have hlen : (marksOf ps).length = (textOf ps).length := by rw [← map_char_marksOf, List.length_map]
  rw [marksBefore, marks, h, marksOf_append, ← hlen, List.take_left]
  rfl

/-- The boundary in a text with `k` more characters in front. -/
def Boundary.shift (k : Nat) : Boundary → Boundary
  | group opener => group (k + opener)
  | plain start => plain (k + start)

/-- The boundary of what stands behind a bracket, a separator or the start of a text, with nothing or a comma in front
of that. -/
theorem boundaryBefore_bounds {as : List Piece} (h : Bounds as) (hq : ∀ c, .code c ∈ as → isQuote c = false) :
    ∃ b : Boundary, b.start = (textOf as).length ∧
      ∀ before, before = [] ∨ before.head? = some ⟨',', true⟩ →
        boundaryBefore (marksBack as ++ before) = .ok (b.shift before.length) := by
  rcases h with rfl | ⟨ms, c, rfl, hc⟩
  · refine ⟨.plain 0, rfl, fun before hb => ?_⟩
    rcases hb with rfl | hb
    · rw [marksBack_nil, List.append_nil, boundaryBefore]
      rfl
    · obtain ⟨m, rfl⟩ := List.head?_eq_some_iff.mp hb
      rw [marksBack_nil, List.nil_append, boundaryBefore, if_neg (by decide), if_neg (by decide), if_neg (by decide),
        if_pos (by decide)]
      rfl
  · have hquote := hq c (by simp)
    have hmarks : ∀ before : List Mark, marksBack (ms ++ [.code c]) ++ before = ⟨c, true⟩ :: (marksBack ms ++ before) :=
      fun before => by rw [marksBack_append]; rfl
    have hlen : ∀ before : List Mark, (marksBack ms ++ before).length = before.length + (textOf ms).length :=
      fun before => by rw [List.length_append, length_marksBack, Nat.add_comm]
    rcases hc with hc | hc
    · refine ⟨.group (textOf ms).length, by simp [Boundary.start, Piece.text], fun before _ => ?_⟩
      rw [hmarks, boundaryBefore, if_neg (by simp [hquote]), if_neg (by simp [isCloser_of_isOpener hc]), if_pos hc,
        hlen]
      rfl
    · have hno : isCloser c = false ∧ isOpener c = false := by
        simp only [isSeparator, Bool.or_eq_true, decide_eq_true_eq] at hc
        rcases hc with (((rfl | rfl) | rfl) | rfl) | rfl
        all_goals exact ⟨rfl, rfl⟩
      refine ⟨.plain ((textOf ms).length + 1), by simp [Boundary.start, Piece.text], fun before _ => ?_⟩
      rw [hmarks, boundaryBefore, if_neg (by simp [hquote]), if_neg (by simp [hno.1]), if_neg (by simp [hno.2]),
        if_pos hc, hlen]
      rfl

/-! ## Around the base -/

theorem nest_trivia {ds : List Piece} (h : ∀ p ∈ ds, isTrivia p = true) : nest [] ds = some [] := by
  induction ds with
  | nil => rfl
  | cons p ds ih =>
    have ih := ih fun q hq => h q (List.mem_cons_of_mem _ hq)
    cases p with
    | region kind t => exact ih
    | code c =>
      have hspace : ∀ d ∈ [c], isSpace d = true := fun d hd => by
        rw [List.mem_singleton.mp hd]
        exact h _ List.mem_cons_self
      exact (nest_spaces hspace [] ds).trans ih

/-! ## Behind the stop words -/

/-- Pieces of a text that are no longer than others of it are the first of these. -/
theorem split_of_length_le {xs qs : List Piece} {r r' : Text} (h : qs ++ pieces r' = xs ++ pieces r)
    (hl : (textOf qs).length ≤ (textOf xs).length) : ∃ ys, xs = qs ++ ys ∧ pieces r' = ys ++ pieces r := by
  rcases List.append_eq_append_iff.mp h with ⟨z, hz, hr⟩ | ⟨z, rfl, hr⟩
  · exact ⟨z, hz, hr⟩
  · rw [textOf_append, List.length_append] at hl
    have hnil : z = [] := textOf_eq_nil hr (List.length_eq_zero_iff.mp (by omega))
    subst hnil
    exact ⟨[], by simp, hr.symm⟩

/-- A quote or a bracket among pieces that leave no more brackets open is closed among them, whatever follows. -/
theorem closing_of_balanced {xs : List Piece} {s t : List Char} (hne : xs ≠ []) (hn : nest s xs = some t)
    (hl : t.length ≤ s.length) :
    ∃ n, ∀ c rest r, pieces (c :: rest) = xs ++ pieces r → (isQuote c = true ∨ isOpener c = true) →
      closingOffset? (c :: rest) = some n ∧ n < (textOf xs).length := by
  obtain ⟨p, xs, rfl⟩ := List.exists_cons_of_ne_nil hne
  cases p with
  | region kind u =>
    refine ⟨u.length - 1, fun c rest r hp hc => ?_⟩
    obtain ⟨n, hreg, rfl, -⟩ := pieces_eq_region hp
    have hle := lt_of_regionTail? hreg
    have hq : isQuote c = true := hc.resolve_right fun ho => by
      rw [regionTail?_of_isOpener ho] at hreg
      cases hreg
    rw [List.length_cons, List.length_take, Nat.min_eq_left hle, Nat.add_sub_cancel]
    constructor
    · rcases regionTail?_cases hreg with ⟨-, hlit⟩ | ⟨-, hcom⟩
      · rw [closingOffset?, if_pos hq]
        rwa [literalTail?, if_pos hq] at hlit
      · rw [isQuote_of_commentTail? hcom] at hq
        cases hq
    · rw [textOf_cons, Piece.text, List.length_append, List.length_cons, List.length_take, Nat.min_eq_left hle]
      omega
  | code d =>
    by_cases ho : isOpener d = true
    · rw [nest_open ho] at hn
      obtain ⟨qs, e, rs, rfl, hqs, he, -⟩ := nest_close (s := []) hn hl
      refine ⟨(textOf qs).length + 1, fun c rest r hp _ => ⟨?_, ?_⟩⟩
      · rw [List.cons_append] at hp
        obtain ⟨rfl, -, hp⟩ := pieces_eq_code hp
        have hclose : closingIn ([] ++ [c]) rest = some (textOf qs).length :=
          closingIn_iff.mpr ⟨qs, e, rs ++ pieces r, by rw [hp]; simp, rfl, hqs, he⟩
        rw [closingOffset?, if_neg (by simp [isQuote_of_isOpener ho]), if_pos ho]
        rw [List.nil_append] at hclose
        rw [hclose]
        rfl
      · simp only [textOf_cons, textOf_append, Piece.text, List.length_append, List.length_singleton]
        omega
    · refine ⟨0, fun c rest r hp hc => ?_⟩
      rw [List.cons_append] at hp
      obtain ⟨rfl, -, -⟩ := pieces_eq_code hp
      rcases hc with hq | ho'
      · rw [isQuote_of_nest hn List.mem_cons_self] at hq
        cases hq
      · exact absurd ho' ho

/-- A delimiter and what it encloses, if it is closed among some pieces. -/
theorem delimiter_within {c : Char} {rest r : Text} {xs : List Piece} {n : Nat}
    (hc : (isQuote c || isOpener c) = true) (h : closingOffset? (c :: rest) = some n)
    (hp : pieces (c :: rest) = xs ++ pieces r) (hlt : n < (textOf xs).length) :
    ∃ qs ys, xs = qs ++ ys ∧ textOf qs = c :: rest.take n ∧ (textOf qs).length = n + 1 ∧ n ≤ rest.length ∧
      nest [] qs = some [] ∧ pieces (rest.drop n) = ys ++ pieces r := by
  obtain ⟨qs, hqs, htext, hbal⟩ := pieces_closing hc h
  have hle := closingOffset?_lt h
  rw [List.length_cons, Nat.lt_succ_iff] at hle
  have hlen : (textOf qs).length = n + 1 := by rw [htext, List.length_cons, List.length_take, Nat.min_eq_left hle]
  obtain ⟨ys, rfl, hrest⟩ := split_of_length_le (hqs.symm.trans hp) (by omega)
  exact ⟨qs, ys, rfl, htext, hlen, hle, hbal, hrest⟩

/-- A stop word with which some pieces start ends among them, if no word goes on behind them. -/
theorem stopWord_within {before : Option Char} {c : Char} {rest r w : Text} {n : Nat} {xs : List Piece}
    (h : StopWordAt before c rest n w) (hp : pieces (c :: rest) = xs ++ pieces r) (hr : r.head?.any isWord = false) :
    ∃ ys, xs = (c :: rest.take n).map .code ++ ys ∧ nest [] ((c :: rest.take n).map Piece.code) = some [] ∧
      pieces (rest.drop n) = ys ++ pieces r := by
  have hle : (textOf ((c :: rest.take n).map .code)).length ≤ (textOf xs).length := by
    rw [textOf_map_code]
    refine Nat.le_of_not_lt fun hgt => ?_
    have htext : (c :: rest.take n) ++ rest.drop n = textOf xs ++ r := by
      rw [List.cons_append, List.take_append_drop, ← textOf_pieces (c :: rest), hp, textOf_append, textOf_pieces]
    rcases List.append_eq_append_iff.mp htext with ⟨z, hz, -⟩ | ⟨z, hz, hru⟩
    · rw [hz, List.length_append] at hgt
      omega
    · cases z with
      | nil =>
        rw [hz, List.append_nil] at hgt
        omega
      | cons d z =>
        rw [hru, List.cons_append, List.head?_cons, Option.any_some, h.isWord d (by rw [hz]; simp)] at hr
        cases hr
  obtain ⟨ys, rfl, hrest⟩ := split_of_length_le (h.pieces.symm.trans hp) hle
  refine ⟨ys, rfl, ?_, hrest⟩
  have hword := nest_word h.isWord [] []
  rwa [List.append_nil] at hword

/-- A character of code that some balanced pieces start with, if it is no opening bracket. -/
theorem code_within {c : Char} {rest r : Text} {xs : List Piece} (hc : ¬ (isQuote c || isOpener c) = true)
    (hcom : commentTail? c rest = none) (hp : pieces (c :: rest) = xs ++ pieces r) (hne : xs ≠ [])
    (hn : nest [] xs = some []) :
    ∃ ys, xs = .code c :: ys ∧ nest [] [.code c] = some [] ∧ pieces rest = ys ++ pieces r := by
  simp only [Bool.or_eq_true, not_or, Bool.not_eq_true] at hc
  obtain ⟨p, ys, rfl⟩ := List.exists_cons_of_ne_nil hne
  rw [pieces_code (regionTail?_of_code hc.1 hcom), List.cons_append, List.cons.injEq] at hp
  obtain ⟨rfl, hp⟩ := hp
  refine ⟨ys, rfl, ?_, hp⟩
  obtain ⟨u, hstep, -⟩ := nest_cons_iff.mp hn
  cases hstep with
  | opener _ ho =>
    rw [hc.2] at ho
    cases ho
  | plain _ hq ho hcl => rw [nest_code hq ho hcl, nest_nil]

end SqlDialect.Interval
