import SqlDialect.Proofs.Interval.Bounded
import SqlDialect.Proofs.Qualifier

/-!
# Partners

A bracket has its partner behind a balanced word of brackets, and a quote has it at the next quote of its kind. The
search to the right reads the text as it goes, the search to the left goes by the table of regions, and where both find
something they agree. A quote without a partner ends the search to the right while the search to the left passes over
it, so from the left to the right nothing is asked of the text, and the other way its quotes have to be closed.

* `nest_iff_balancedWord`: the brackets of some pieces match if they are a balanced word.
* `findClosing_iff`: the partner of an opening bracket, said without a search.
* `findOpening_mirror`: each search undoes the other.
-/

namespace SqlDialect

/-! ## Balanced words -/

/-- A word over the three kinds of bracket in which each bracket has its partner and the pairs are nested. -/
inductive BalancedWord : List Char → Prop where
  | nil : BalancedWord []
  | bracket {o d : Char} {v w : List Char} : closerOf? o = some d → BalancedWord v → BalancedWord w →
      BalancedWord (o :: (v ++ d :: w))

/-- The bracket that a piece is. -/
def Piece.bracket? : Piece → Option Char
  | .code c => if isOpener c || isCloser c then some c else none
  | .region _ _ => none

/-- The brackets among some pieces, in their order. -/
def bracketsOf (ps : List Piece) : List Char := ps.filterMap Piece.bracket?

theorem bracket?_of_isCloser {c : Char} (h : isCloser c = true) : (Piece.code c).bracket? = some c := by
  rw [Piece.bracket?, h, Bool.or_true]
  rfl

theorem eq_code_of_bracket? {p : Piece} {c : Char} (h : p.bracket? = some c) : p = .code c := by
  cases p with
  | region kind t => cases h
  | code d =>
    rw [Piece.bracket?, Option.ite_none_right_eq_some] at h
    rw [Option.some.inj h.2]

theorem bracketsOf_append (ps qs : List Piece) : bracketsOf (ps ++ qs) = bracketsOf ps ++ bracketsOf qs :=
  List.filterMap_append

theorem bracketsOf_cons {p : Piece} {c : Char} (h : p.bracket? = some c) (ps : List Piece) :
    bracketsOf (p :: ps) = c :: bracketsOf ps := List.filterMap_cons_some h

/-- A bracket of a word stands at a piece. -/
theorem bracketsOf_split {ps : List Piece} {v w : List Char} {c : Char} (h : bracketsOf ps = v ++ c :: w) :
    ∃ xs ys, ps = xs ++ .code c :: ys ∧ bracketsOf xs = v ∧ bracketsOf ys = w ∧
      (Piece.code c).bracket? = some c := by
  obtain ⟨as, bs, rfl, has, hbs⟩ := List.filterMap_eq_append_iff.mp h
  obtain ⟨cs, p, ys, rfl, hcs, hp, hys⟩ := List.filterMap_eq_cons_iff.mp hbs
  obtain rfl := eq_code_of_bracket? hp
  refine ⟨as ++ cs, ys, by simp, ?_, hys, hp⟩
  rw [bracketsOf_append, bracketsOf, has, bracketsOf, List.filterMap_eq_nil_iff.mpr hcs, List.append_nil]

/-- Pieces without brackets leave the open brackets as they are, if no quote is code. -/
theorem nest_of_no_bracket {ps : List Piece} (h : bracketsOf ps = []) (hq : ∀ q, .code q ∈ ps → isQuote q = false)
    (s : List Char) (qs : List Piece) : nest s (ps ++ qs) = nest s qs := by
  induction ps with
  | nil => rfl
  | cons p ps ih =>
    rw [bracketsOf, List.filterMap_eq_nil_iff] at h
    have hrest := ih (List.filterMap_eq_nil_iff.mpr fun p hp => h p (List.mem_cons_of_mem _ hp))
      fun q hm => hq q (List.mem_cons_of_mem _ hm)
    cases p with
    | region kind t => exact hrest
    | code c =>
      have hno : ¬ (isOpener c || isCloser c) = true := fun hc => by
        have hp := h _ List.mem_cons_self
        rw [Piece.bracket?, if_pos hc] at hp
        cases hp
      rw [Bool.or_eq_true, not_or] at hno
      rw [List.cons_append, nest_code (hq c List.mem_cons_self) (by simpa using hno.1) (by simpa using hno.2), hrest]

/-- The brackets of pieces that match are a balanced word. -/
theorem balancedWord_of_nest {ps : List Piece} (h : nest [] ps = some []) : BalancedWord (bracketsOf ps) := by
  induction hlen : ps.length using Nat.strongRecOn generalizing ps with
  | ind n ih =>
    cases hword : bracketsOf ps with
    | nil => exact .nil
    | cons c w =>
      obtain ⟨xs, ys, rfl, hxs, rfl, hc⟩ := bracketsOf_split (v := []) hword
      rw [nest_of_no_bracket hxs fun q hq => isQuote_of_nest h (List.mem_append_left _ hq)] at h
      rw [List.length_append, List.length_cons] at hlen
      by_cases ho : isOpener c = true
      · -- the first bracket is closed behind balanced pieces, and balanced ones follow
        rw [nest_open ho] at h
        obtain ⟨qs, d, rs, rfl, hqs, hd, hrs⟩ := nest_close (s := []) h (Nat.zero_le _)
        rw [List.length_append, List.length_cons] at hlen
        rw [bracketsOf_append, bracketsOf_cons (bracket?_of_isCloser (isCloser_of_openerOf? hd))]
        exact .bracket (closerOf?_eq_some_iff.mpr hd) (ih qs.length (by omega) hqs rfl) (ih rs.length (by omega) hrs rfl)
      · -- a closing bracket has nothing to close
        rw [Piece.bracket?, Option.ite_none_right_eq_some, Bool.or_eq_true, or_iff_right ho] at hc
        obtain ⟨u, hstep, -⟩ := nest_cons_iff.mp h
        exact absurd hc.1 (by simp [hstep.isCloser])

/-- Pieces whose brackets are a balanced word match, if no quote is code. -/
theorem nest_of_balancedWord {w : List Char} (hw : BalancedWord w) {ps : List Piece} (h : bracketsOf ps = w)
    (hq : ∀ q, .code q ∈ ps → isQuote q = false) : nest [] ps = some [] := by
  induction hw generalizing ps with
  | nil =>
    have hnest := nest_of_no_bracket h hq [] []
    rwa [List.append_nil] at hnest
  | @bracket o d v w hd _ _ ihv ihw =>
    obtain ⟨xs, ys, rfl, hxs, hys, -⟩ := bracketsOf_split (v := []) h
    obtain ⟨as, bs, rfl, has, hbs, -⟩ := bracketsOf_split hys
    have has' := ihv has fun q hm => hq q (by simp [hm])
    have hbs' := ihw hbs fun q hm => hq q (by simp [hm])
    have ho := isOpener_of_openerOf? (closerOf?_eq_some_iff.mp hd)
    calc nest [] (xs ++ .code o :: (as ++ .code d :: bs))
        = nest [o] (as ++ .code d :: bs) := by
          rw [nest_of_no_bracket hxs fun q hm => hq q (List.mem_append_left _ hm), nest_open ho]
      _ = nest [o] (.code d :: bs) := nest_balanced_append has' _ _
      _ = some [] := by rw [nest_closer (closerOf?_eq_some_iff.mp hd), hbs']

/-- **Brackets match if they are a balanced word**, and if no quote stands among them without a partner. -/
theorem nest_iff_balancedWord {ps : List Piece} :
    nest [] ps = some [] ↔ (∀ q, .code q ∈ ps → isQuote q = false) ∧ BalancedWord (bracketsOf ps) :=
  ⟨fun h => ⟨fun _ hq => isQuote_of_nest h hq, balancedWord_of_nest h⟩, fun h => nest_of_balancedWord h.2 rfl h.1⟩

/-! ## To the right -/

/-- What stands between an opening bracket in front of position `start` and its partner at position `close`: from
`start` on the text is read as `ps`, in which the quotes have partners and the brackets make up a balanced word, and
then the closing bracket of the kind of `o`. -/
structure ClosedAt (text : Text) (o : Char) (start close : Nat) (ps : List Piece) : Prop where
  met : ∃ d qs, pieces (text.drop start) = ps ++ .code d :: qs ∧ closerOf? o = some d
  position : start + (textOf ps).length = close
  quotes : ∀ q, .code q ∈ ps → isQuote q = false
  balanced : BalancedWord (bracketsOf ps)

theorem closedBy_iff_closedAt {text : Text} {o : Char} {start n : Nat} :
    ClosedBy [] o (text.drop start) n ↔ ∃ ps, ClosedAt text o start (start + n) ps := by
  constructor
  · rintro ⟨ps, d, qs, hp, hl, hn, hd⟩
    obtain ⟨hquotes, hbalanced⟩ := nest_iff_balancedWord.mp hn
    exact ⟨ps, ⟨d, qs, hp, closerOf?_eq_some_iff.mpr hd⟩, by rw [hl], hquotes, hbalanced⟩
  · rintro ⟨ps, ⟨d, qs, hp, hd⟩, hl, hquotes, hbalanced⟩
    exact ⟨ps, d, qs, hp, Nat.add_left_cancel hl, nest_iff_balancedWord.mpr ⟨hquotes, hbalanced⟩,
      closerOf?_eq_some_iff.mp hd⟩

theorem ClosedAt.start_le {text : Text} {o : Char} {start close : Nat} {ps : List Piece}
    (h : ClosedAt text o start close ps) : start ≤ close := h.position ▸ Nat.le_add_right _ _

/-- **The partner of an opening bracket.** It is found exactly where a text with closed quotes and a balanced word of
brackets ends, and there is no more than one such place. -/
theorem findClosing_iff {text : Text} {i : Nat} {o : Char} (hi : text[i]? = some o) (ho : isOpener o = true) :
    (∀ close, findClosing text i = some close ↔ ∃ ps, ClosedAt text o (i + 1) close ps) ∧
      ∀ c c' ps ps', ClosedAt text o (i + 1) c ps → ClosedAt text o (i + 1) c' ps' → c = c' := by
  have hiff : ∀ close, findClosing text i = some close ↔ ∃ ps, ClosedAt text o (i + 1) close ps := by
    intro close
    rw [findClosing_iff_closedBy (drop_of_getElem? hi) ho]
    constructor
    · rintro ⟨n, hn, rfl⟩
      exact closedBy_iff_closedAt.mp hn
    · rintro ⟨ps, h⟩
      obtain ⟨n, rfl⟩ := Nat.exists_eq_add_of_le h.start_le
      exact ⟨n, closedBy_iff_closedAt.mpr ⟨ps, h⟩, rfl⟩
  refine ⟨hiff, fun c c' ps ps' h h' => ?_⟩
  have hc := (hiff c).mpr ⟨ps, h⟩
  rw [(hiff c').mpr ⟨ps', h'⟩] at hc
  exact (Option.some.inj hc).symm

/-- Neither the parenthesis in the literal nor the brace in the comment is the partner. -/
theorem findClosing_iff_literal :
    let text := "f(a[1], ')', \x7bb # \x7d\n\x7d) )".toList
    text[1]? = some '(' ∧ isOpener '(' = true ∧ findClosing text 1 = some 21 ∧
      ∃ ps, ClosedAt text '(' 2 21 ps := by
  intro text
  have hopener : text[1]? = some '(' := by decide +kernel
  have hfind : findClosing text 1 = some 21 := by decide +kernel
  exact ⟨hopener, by decide, hfind, ((findClosing_iff hopener (by decide)).1 21).mp hfind⟩

/-! ## To the left -/

/-- A bracket with its partner in front of balanced pieces. -/
theorem findOpening_of_pieces {o c : Char} {text : Text} {front ps qs : List Piece} {close : Nat}
    (h : pieces text = front ++ .code o :: (ps ++ .code c :: qs))
    (hclose : (textOf front).length + 1 + (textOf ps).length = close) (hn : nest [] ps = some [])
    (hc : openerOf? c = some o) : findOpening text close = some (textOf front).length := by
  have hcut : pieces text = (front ++ .code o :: ps) ++ .code c :: qs := by rw [h]; simp
  have hlen : (textOf (front ++ .code o :: ps)).length = close := by
    rw [← hclose, textOf_append, textOf_cons, List.length_append, List.length_append, ← Nat.add_assoc]
    rfl
  have hat : text[close]? = some c := by
    rw [← List.head?_drop, drop_of_pieces hcut hlen]
    rfl
  have hbefore : marksBefore text close = Interval.marksBack ps ++ ⟨o, true⟩ :: Interval.marksBack front := by
    rw [← hlen, Interval.marksBefore_pieces hcut, Interval.marksBack_append, ← List.singleton_append,
      Interval.marksBack_append, Interval.marksBack_code, List.append_assoc, List.singleton_append]
  have hcloser := isCloser_of_openerOf? hc
  have hquote := isQuote_of_isCloser hcloser
  simp only [findOpening, hat, hquote, hcloser, Bool.false_eq_true, if_false, if_true]
  rw [hbefore, Interval.openingIn_last hn hc, Interval.length_marksBack]

/-- No closing bracket opens a region. -/
theorem pieces_of_isCloser {c : Char} {text : Text} {i : Nat} (hi : text[i]? = some c) (hc : isCloser c = true) :
    pieces (text.drop i) = .code c :: pieces (text.drop (i + 1)) := by
  have hne : c ≠ '#' ∧ c ≠ '/' ∧ c ≠ '-' := by
    unfold isCloser openerOf? at hc
    split at hc <;> first | decide | cases hc
  rw [drop_of_getElem? hi, pieces_code (regionTail?_of_ne (isQuote_of_isCloser hc) hne.1 hne.2.1 hne.2.2 _)]

/-- The bracket that a closing bracket outside of all regions is found to close, in a text with closed quotes, has
balanced pieces behind it. -/
theorem findOpening_split {text : Text} {c i : Nat} {d : Char} (hquotes : Interval.QuotesClosed text)
    (hc : text[c]? = some d) (hcloser : isCloser d = true) (hcode : regionAt? (regions text) c = none)
    (h : findOpening text c = some i) :
    ∃ front ps o, pieces text = front ++ .code o :: (ps ++ .code d :: pieces (text.drop (c + 1))) ∧
      (textOf front).length = i ∧ i + 1 + (textOf ps).length = c ∧ nest [] ps = some [] ∧ openerOf? d = some o := by
  have hlt := (List.getElem?_eq_some_iff.mp hc).1
  obtain ⟨ms, hp, hl⟩ := Interval.cut_of_code hcode (Nat.le_of_lt hlt)
  simp only [findOpening, hc, isQuote_of_isCloser hcloser, hcloser, Bool.false_eq_true, if_false, if_true] at h
  rw [← hl, Interval.marksBefore_pieces hp] at h
  have hq : ∀ q, .code q ∈ ms → isQuote q = false := fun q hq => hquotes q (by rw [hp]; exact List.mem_append_left _ hq)
  obtain ⟨front, o, ps, t, rfl, hfront, ho, hps, ht⟩ := Interval.openingIn_split (s := []) hq h
  rw [List.map_nil, List.map_eq_nil_iff] at ht
  subst ht
  refine ⟨front, ps, o, ?_, hfront, ?_, hps, closerOf?_eq_some_iff.mp ho⟩
  · rw [hp, pieces_of_isCloser hc hcloser, List.append_assoc, List.cons_append]
  · rw [← hl, ← hfront, textOf_append, textOf_cons, List.length_append, List.length_append, ← Nat.add_assoc]
    rfl

/-- A literal runs from its quote to the next quote of its kind, which is its last character. -/
theorem literal_ends {q : Char} {b rest : Text} {ns : List Piece}
    (h : pieces (q :: b ++ rest) = .region .literal (q :: b) :: ns) :
    closingOffset? (q :: b ++ rest) = some b.length ∧ isQuote q = true ∧ (q :: b).getLast? = some q := by
  have hlit : literalTail? q (b ++ rest) = some b.length := by
    rcases regionTail?_cases (regionTail?_of_pieces h) with ⟨-, hl⟩ | ⟨hk, -⟩
    · exact hl
    · cases hk
  obtain ⟨hquote, hlast⟩ := getLast?_of_literalTail? hlit
  rw [List.take_left] at hlast
  rw [literalTail?, if_pos hquote] at hlit
  refine ⟨?_, hquote, by rw [List.getLast?_cons, hlast]; rfl⟩
  rw [List.cons_append, closingOffset?, if_pos hquote, hlit]

/-- The quotes at the ends of a literal are partners. -/
theorem partners_of_literal {text : Text} {r : Region} (hr : r ∈ regions text) (hkind : r.kind = .literal) :
    findClosing text r.start = some (r.stop - 1) ∧ findOpening text (r.stop - 1) = some r.start := by
  obtain ⟨ms, t, ns, hp, hstart, hstop⟩ := mem_regionsFrom.mp hr
  rw [Nat.zero_add] at hstart
  rw [hkind] at hp
  have hdrop : text.drop r.start = t ++ textOf ns := drop_of_pieces hp hstart.symm
  have hpieces : pieces (t ++ textOf ns) = .region .literal t :: ns := pieces_textOf hp
  cases t with
  | nil => exact absurd rfl (region_ne_nil (hpieces ▸ List.mem_cons_self))
  | cons q b =>
    obtain ⟨hoffset, hquote, hlast⟩ := literal_ends hpieces
    have hlen : (q :: b).length = b.length + 1 := rfl
    refine ⟨by rw [findClosing, hdrop, hoffset, hstop, hlen]; rfl, ?_⟩
    have hfirst : text[r.start]? = some q := by
      rw [← List.head?_drop, hdrop]
      rfl
    have hend : text[r.stop - 1]? = some q := by
      rw [hstop, hlen, ← Nat.add_assoc, Nat.add_sub_cancel, ← List.getElem?_drop, hdrop,
        List.getElem?_append_left (by rw [hlen]; exact Nat.lt_succ_self _), ← hlast, List.getLast?_eq_getElem?, hlen,
        Nat.add_sub_cancel]
    have hat : regionAt? (regions text) (r.stop - 1) = some ⟨.literal, r.start, r.stop⟩ := by
      rw [Interval.regionAt?_piece hp (by omega) (by simp only [Piece.text]; omega), Interval.regionOf?, ← hstart, hstop]
    have hstop' : r.stop = r.stop - 1 + 1 := by omega
    simp only [findOpening, hend, hquote, if_true, hat, hfirst]
    rw [if_pos ⟨hstop', trivial⟩]

/-- **Each search undoes the other.** The partner of an opening bracket outside of all regions stands outside of them
and has that bracket as its partner, the same holds of closing brackets where all quotes are closed, and the quotes at
the ends of a literal are partners. -/
theorem findOpening_mirror (text : Text) :
    (∀ o c x, text[o]? = some x → isOpener x = true → regionAt? (regions text) o = none →
        findClosing text o = some c → regionAt? (regions text) c = none ∧ findOpening text c = some o) ∧
      (Interval.QuotesClosed text → ∀ c o y, text[c]? = some y → isCloser y = true →
        regionAt? (regions text) c = none → findOpening text c = some o → findClosing text o = some c) ∧
      ∀ r ∈ regions text, r.kind = .literal →
        findClosing text r.start = some (r.stop - 1) ∧ findOpening text (r.stop - 1) = some r.start := by
  refine ⟨fun o c x hx hopener hcode h => ?_, fun hquotes c o y hy hcloser hcode h => ?_, fun r hr hkind =>
    partners_of_literal hr hkind⟩
  · obtain ⟨ps, d, hp, hclose, -, hn, hd⟩ := findClosing_split hx hopener h
    obtain ⟨front, hfront, hl⟩ :=
      Interval.cut_of_code hcode (Nat.le_of_lt (List.getElem?_eq_some_iff.mp hx).1)
    rw [drop_of_getElem? hx, pieces_code (Interval.regionTail?_of_isOpener hopener _), hp] at hfront
    have hcut : pieces text = (front ++ .code x :: ps) ++ .code d :: pieces (text.drop (c + 1)) := by
      rw [hfront]
      simp
    have hlen : (textOf (front ++ .code x :: ps)).length = c := by
      rw [← hclose, ← hl, textOf_append, textOf_cons, List.length_append, List.length_append, ← Nat.add_assoc]
      rfl
    refine ⟨?_, ?_⟩
    · rw [Interval.regionAt?_piece hcut (Nat.le_of_eq hlen) (by rw [hlen]; exact Nat.lt_succ_self c)]
      rfl
    · rw [findOpening_of_pieces hfront (by rw [hl, hclose]) hn hd, hl]
  · obtain ⟨front, ps, x, hp, hl, hclose, hn, hx⟩ := findOpening_split hquotes hy hcloser hcode h
    rw [findClosing_of_pieces hp hl hn hx, hclose]

/-- The parentheses around a quoted name and a comment with brackets in them. -/
theorem findOpening_mirror_brackets :
    let text := "[(a, \x60b)(\x60 /* ] */)]".toList
    Interval.QuotesClosed text ∧ text[1]? = some '(' ∧ isOpener '(' = true ∧ text[18]? = some ')' ∧
      isCloser ')' = true ∧ regionAt? (regions text) 1 = none ∧ regionAt? (regions text) 18 = none ∧
      findClosing text 1 = some 18 ∧ findOpening text 18 = some 1 ∧ ⟨.literal, 5, 10⟩ ∈ regions text ∧
      findClosing text 5 = some 9 ∧ findOpening text 9 = some 5 := by
  intro text
  have hquotes : Interval.QuotesClosed text := by decide +kernel
  have hopener : text[1]? = some '(' := by decide +kernel
  have hcloser : text[18]? = some ')' := by decide +kernel
  have hopenerCode : regionAt? (regions text) 1 = none := by decide +kernel
  have hcloserCode : regionAt? (regions text) 18 = none := by decide +kernel
  have hliteral : ⟨.literal, 5, 10⟩ ∈ regions text := by decide +kernel
  obtain ⟨hright, hleft, hends⟩ := findOpening_mirror text
  have hclosing : findClosing text 1 = some 18 := by decide +kernel
  have hopening := (hright 1 18 '(' hopener (by decide) hopenerCode hclosing).2
  exact ⟨hquotes, hopener, by decide, hcloser, by decide, hopenerCode, hcloserCode,
    hleft hquotes 18 1 ')' hcloser (by decide) hcloserCode hopening, hopening, hliteral, hends _ hliteral rfl⟩

end SqlDialect
