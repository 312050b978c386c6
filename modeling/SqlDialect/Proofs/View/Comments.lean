import SqlDialect.Proofs.Interval.Level
import SqlDialect.Proofs.View.Removal

/-!
# Comments among the joins

The closing parentheses that go are counted without regard to comments, so a parenthesis or a quote in a comment can be
taken for code. A comment does no harm if it is `Neutral`: what it holds comes to nothing when it is read as code. Any
other comment does harm somewhere, which is shown by a definition built around it.

* `Removes.pieces_eq`: what is left is read as before if no closing parenthesis stands behind a dash or a slash.
* `Tidy.step`: what a step needs and leaves.
* `removes_unnestFrom`: all steps take away code and leave balanced pieces, if every region is neutral.
* `settle_eq_none`: why a comment is not neutral.
* `exists_of_parenthesis`, `exists_of_quote`, `exists_of_depth`: a definition for each reason that is not respected.
* `respects_iff_neutral`: the comments that do no harm are exactly the neutral ones.
-/

namespace SqlDialect.View

/-! ## Reading what is left -/

/-- Neither a dash nor a slash, which could open a comment with what follows. -/
def Firm (before : Option Char) : Prop := before ≠ some '-' ∧ before ≠ some '/'

/-- No closing parenthesis stands directly behind a dash or a slash of code. -/
def FirmIn (before : Option Char) (ps : List Piece) : Prop :=
  ∀ ms ns, ps = ms ++ .code ')' :: ns → Firm (codeBehind before ms)

section Firm

variable {P : Option Char → Prop} {before before' : Option Char} {ps qs rs : List Piece} {fs gs : List Bool}
  {text : Text}

theorem firm_of_isWord {c : Char} (h : isWord c = true) : Firm (some c) := by
  constructor <;> (rintro ⟨⟩; exact absurd h (by decide))

theorem firm_of_run {c : Char} (h : c = '(' ∨ isBlank c = true) : Firm (some c) := by
  rcases h with rfl | h
  · exact ⟨by decide, by decide⟩
  · constructor <;> (rintro ⟨⟩; exact absurd h (by decide))

theorem firmIn_cons {p : Piece} :
    FirmIn before (p :: ps) ↔ (p = .code ')' → Firm before) ∧ FirmIn (codeOf? p) ps := by
  constructor
  · exact fun h => ⟨fun hp => h [] ps (by rw [hp]; rfl), fun ms ns he => h (p :: ms) ns (by rw [he]; rfl)⟩
  · rintro ⟨h, h'⟩ ms ns he
    cases ms with
    | nil =>
      rw [List.nil_append, List.cons.injEq] at he
      exact h he.1
    | cons m ms =>
      rw [List.cons_append, List.cons.injEq] at he
      obtain ⟨rfl, he⟩ := he
      exact h' ms ns he

theorem FirmIn.drop (h : FirmIn before (ps ++ qs)) : FirmIn (codeBehind before ps) qs := fun ms ns he => by
  have h' := h (ps ++ ms) ns (by rw [he, List.append_assoc])
  rwa [codeBehind_append] at h'

namespace Removes

/-- What stands firm still does when parentheses are gone. -/
theorem firmIn (h : Removes Firm before ps fs qs) (hs : FirmIn before ps) (hb : before' = before ∨ Firm before') :
    FirmIn before' qs := by
  induction h generalizing before' with
  | nil => exact fun ms ns he => absurd he (by simp)
  | keep p _ ih =>
    obtain ⟨hp, hrest⟩ := firmIn_cons.mp hs
    refine firmIn_cons.mpr ⟨fun he => ?_, ih hrest (.inl rfl)⟩
    rcases hb with rfl | hb
    · exact hp he
    · exact hb
  | drop _ hfirm _ ih =>
    refine ih (firmIn_cons.mp hs).2 (.inr ?_)
    rcases hb with rfl | hb
    · exact hfirm
    · exact hb

/-- **Composition.** Parentheses that go one after the other. -/
theorem trans (hP : ∀ c, c = '(' ∨ c = ')' → P (some c)) (h : Removes P before ps fs qs)
    (h' : Removes P before' qs gs rs) (hb : P before' → P before) : Removes P before ps (merge fs gs) rs := by
  induction h generalizing before' gs rs with
  | nil =>
    cases h'
    exact .nil _
  | @keep before ps qs fs p h ih =>
    cases h' with
    | keep _ h' =>
      rw [merge_stay]
      exact .keep p (ih h' id)
    | drop hc hb' h' => exact .drop hc (hb hb') (ih h' id)
  | drop hc hfirm _ ih => exact .drop hc hfirm (ih h' fun _ => hP _ hc)

theorem pieces_tail {p : Piece} (h : pieces (textOf (p :: ps)) = p :: ps) : pieces (textOf ps) = ps := by
  have hcons : pieces (textOf (p :: ps)) = [p] ++ ps := h
  exact pieces_textOf hcons

theorem textOf_ne_nil {p : Piece} (h : pieces text = p :: ps) : p.text ≠ [] := fun he => by
  have hcons : pieces text = [p] ++ ps := h
  cases textOf_eq_nil hcons (by rw [textOf_cons, he]; rfl)

/-- The first character stays if it is no parenthesis, or what is in front of it is not firm. -/
theorem head?_eq (h : Removes Firm before ps fs qs) (hp : pieces (textOf ps) = ps)
    (hc : ¬ Firm before ∨ ∀ c, (textOf ps).head? = some c → c ≠ '(' ∧ c ≠ ')') :
    (textOf qs).head? = (textOf ps).head? := by
  cases h with
  | nil => rfl
  | keep p h =>
    obtain ⟨c, t, ht⟩ := List.exists_cons_of_ne_nil (textOf_ne_nil hp)
    rw [textOf_cons, textOf_cons, ht]
    rfl
  | drop hparen hfirm h =>
    exfalso
    rcases hc with hc | hc
    · exact hc hfirm
    · obtain ⟨h1, h2⟩ := hc _ rfl
      exact hparen.elim h1 h2

/-- What is no comment does not become one where nothing goes behind a dash or a slash. -/
theorem commentTail?_none {c : Char} (h : Removes Firm (some c) ps fs qs) (hp : pieces (textOf ps) = ps)
    (hc : commentTail? c (textOf ps) = none) : commentTail? c (textOf qs) = none := by
  rw [commentTail?_eq_none_iff] at hc ⊢
  refine ⟨hc.1, fun hslash => ?_, fun hdash hd => ?_⟩
  · rw [h.head?_eq hp (.inl fun hf => hf.2 (by rw [hslash]))]
    exact hc.2.1 hslash
  · have hloose : ∀ {b}, b = some '-' → ¬ Firm b := fun hb hf => hf.1 hb
    have hhead := h.head?_eq hp (.inl (hloose (by rw [hdash])))
    have hblank := hc.2.2 hdash (hhead ▸ hd)
    cases h with
    | nil => exact hblank
    | drop _ hfirm _ => exact absurd hfirm (hloose (by rw [hdash]))
    | @keep _ ps qs fs p h =>
      have hps := pieces_tail hp
      obtain ⟨d, t, ht⟩ := List.exists_cons_of_ne_nil (textOf_ne_nil hp)
      rw [textOf_cons, ht] at hd hblank ⊢
      obtain rfl : d = '-' := Option.some.inj hd
      cases t with
      | cons e t => exact hblank
      | nil =>
        -- a dash alone is no region
        cases p with
        | code e =>
          obtain rfl : e = '-' := List.head_eq_of_cons_eq ht
          have hnext := h.head?_eq hps (.inl (hloose rfl))
          simpa [hnext] using hblank
        | region kind u =>
          exfalso
          obtain rfl : u = ['-'] := ht
          have hreg := regionTail?_of_pieces (c := '-') (a := []) (r := textOf ps) hp
          rcases regionTail?_cases hreg with ⟨-, hl⟩ | ⟨-, hcomment⟩
          · cases hl
          · exact absurd (dash_of_commentTail? hcomment).2 (Nat.lt_irrefl 0)

/-- **Reading.** Pieces of which parentheses go that stand firm are read as they were. -/
theorem pieces_eq (h : Removes Firm before ps fs qs) (hp : pieces (textOf ps) = ps)
    (hq : ∀ c, .code c ∈ ps → isQuote c = false) : pieces (textOf qs) = qs := by
  induction h with
  | nil => exact hp
  | drop _ _ _ ih => exact ih (pieces_tail hp) fun c hc => hq c (List.mem_cons_of_mem _ hc)
  | @keep before ps qs fs p h ih =>
    have hps := pieces_tail hp
    have hrest := ih hps fun c hc => hq c (List.mem_cons_of_mem _ hc)
    cases p with
    | code c =>
      have hcons : pieces (c :: textOf ps) = .code c :: ps := hp
      have hnone := (pieces_eq_code hcons).2.1
      have hlit := literalTail?_of_code (hq c List.mem_cons_self) (textOf qs)
      have hcomment := h.commentTail?_none hps (regionTail?_eq_none_iff.mp hnone).2
      have hnone' : pieces (c :: textOf qs) = .code c :: pieces (textOf qs) :=
        pieces_code (regionTail?_eq_none_iff.mpr ⟨hlit, hcomment⟩)
      rw [textOf_cons, Piece.text, List.singleton_append, hnone', hrest]
    | region kind t =>
      obtain ⟨c, u, rfl⟩ := List.exists_cons_of_ne_nil (textOf_ne_nil hp)
      have hreg : regionTail? c (u ++ textOf ps) = some (kind, u.length) := regionTail?_of_pieces hp
      have hreg' : regionTail? c (u ++ textOf qs) = some (kind, u.length) := by
        by_cases hnil : textOf ps = []
        · have happend : pieces (textOf ps) = ps ++ [] := by rw [hps, List.append_nil]
          obtain rfl : ps = [] := textOf_eq_nil happend hnil
          cases h
          exact hreg
        · by_cases hline : (textOf ps).head? = some '\n'
          · -- the line break behind a line comment stays
            have hhead := h.head?_eq hps (.inr fun c hc => by
              rw [hline, Option.some.injEq] at hc
              subst hc
              exact ⟨by decide, by decide⟩)
            obtain ⟨x, hx⟩ := List.head?_eq_some_iff.mp hline
            obtain ⟨y, hy⟩ := List.head?_eq_some_iff.mp (hhead.trans hline)
            rw [hy]
            rw [hx] at hreg
            exact regionTail?_append_line hreg y
          · exact regionTail?_append hreg (Nat.le_refl _) hnil (fun _ _ _ => hline) _
      have hpieces : pieces (c :: (u ++ textOf qs)) = .region kind (c :: u) :: pieces (textOf qs) := by
        rw [pieces_region hreg', List.take_left, List.drop_left]
      rw [textOf_cons, Piece.text, List.cons_append, hpieces, hrest]

end Removes

/-- The brackets of a text are closed, with `s` open in front of it, its regions are neutral, and no closing parenthesis
stands in it behind a dash or a slash; `front` is the character in front of it, if that is code. -/
structure Tidy (s : List Char) (front : Option Char) (text : Text) : Prop where
  nest : SqlDialect.nest s (pieces text) = some []
  neutral : ∀ kind t, .region kind t ∈ pieces text → Neutral t
  firm : FirmIn front (pieces text)

/-- **A step.** What stands behind a FROM of such a text is one, and what the step leaves of it is one: only code goes. -/
theorem Tidy.step {s : List Char} {front : Option Char} {n : Nat} (h : Tidy s front text)
    (hfrom : findKeyword fromWord before text = some n) :
    let rest := text.drop (n + fromWord.length)
    ∃ ms s', pieces text = ms ++ pieces rest ∧ text.take (n + fromWord.length) = textOf ms ∧
      SqlDialect.nest s ms = some s' ∧ Tidy s' (codeBehind front ms) rest ∧
      Tidy s' (codeBehind front ms) (unnest rest).1 ∧
      Removes Firm (codeBehind front ms) (pieces rest) (unnestFlags rest) (pieces (unnest rest).1) := by
  intro rest
  obtain ⟨ms, v, u, htext, hp, hms, hv, -, -⟩ := findKeyword_split fromWord_ne_nil isWord_fromWord hfrom
  have hlen := length_eq_of_lower_eq hv
  have hrest : rest = u := by
    show text.drop (n + fromWord.length) = u
    rw [htext, ← hms, ← hlen, ← List.drop_drop, List.drop_left, List.drop_left]
  have hcut : pieces text = (ms ++ v.map .code) ++ pieces rest := by rw [hp, hrest, List.append_assoc]
  have hfront : text.take (n + fromWord.length) = textOf (ms ++ v.map .code) := take_of_pieces hcut (by
    rw [textOf_append, List.length_append, textOf_map_code, hms, hlen])
  obtain ⟨hn, hr, hs⟩ := h
  rw [hcut] at hn hr hs
  obtain ⟨s', hms', hn'⟩ := nest_prefix hn
  -- behind the keyword nothing opens a comment with what follows
  have hfirm : Firm (codeBehind front (ms ++ v.map .code)) := by
    have hne : v ≠ [] := fun hv => by
      rw [hv] at hlen
      exact fromWord_ne_nil (List.length_eq_zero_iff.mp hlen.symm)
    rw [← List.dropLast_concat_getLast hne, List.map_append, ← List.append_assoc, codeBehind_append]
    exact firm_of_isWord (isWord_of_lower_eq hv isWord_fromWord _ (List.getLast_mem hne))
  have hs' := hs.drop
  have hr' : ∀ kind t, .region kind t ∈ pieces rest → Neutral t := fun kind t ht =>
    hr kind t (List.mem_append_right _ ht)
  obtain ⟨qs, hqs, hnest⟩ := removes_unnest hn' hr' (fun c hc => firm_of_run hc) hfirm hs'
  have hselect := hqs.select_eq
  rw [textOf_pieces, (unnestFlags_spec rest).2.1] at hselect
  have hread := hqs.pieces_eq (by rw [textOf_pieces]) fun c hc => isQuote_of_nest hn' hc
  rw [← hselect] at hread
  have hleft : ∀ p ∈ pieces (unnest rest).1, p ∈ pieces rest := hread ▸ hqs.subset
  refine ⟨_, s', hcut, hfront, hms', ⟨hn', hr', hs'⟩, ?_, hread ▸ hqs⟩
  exact ⟨hread ▸ hnest, fun kind t ht => hr' kind t (hleft _ ht), hread ▸ hqs.firmIn hs' (.inl rfl)⟩

/-- **All steps.** In a balanced text with neutral regions in which no closing parenthesis stands behind a dash or a
slash, only code goes, and what is left is balanced. By induction on the steps: what one step leaves is such a text. -/
theorem removes_unnestFrom {s : List Char} (before : Option Char) (text : Text) (hn : nest s (pieces text) = some [])
    (hr : ∀ kind t, .region kind t ∈ pieces text → Neutral t) {front : Option Char} (hs : FirmIn front (pieces text)) :
    Removes Firm front (pieces text) (flagsFrom before text) (pieces (unnestFrom before text).1) ∧
      nest s (pieces (unnestFrom before text).1) = some [] := by
  fun_induction flagsFrom before text generalizing s front with
  | case1 before text h =>
    rw [(flagsFrom_of_none h).2]
    have hrefl := Removes.refl Firm front (pieces text)
    rw [textOf_pieces] at hrefl
    exact ⟨hrefl, hn⟩
  | case2 before text n h stop rest =>
    rename_i ih
    rw [(flagsFrom_of_some h rfl rfl).2]
    obtain ⟨ms, s', hcut, hfront, hms, -, hleft, hqs⟩ := Tidy.step ⟨hn, hr, hs⟩ h
    obtain ⟨hlater, hnest⟩ := ih hleft.nest hleft.neutral hleft.firm
    have hparen : ∀ c, c = '(' ∨ c = ')' → Firm (some c) := by rintro c (rfl | rfl) <;> exact ⟨by decide, by decide⟩
    have hall := Removes.behind ms (hqs.trans hparen hlater id)
    rw [hcut] at hn
    have hout := hall.pieces_eq (by rw [← hcut, textOf_pieces]) fun c hc => isQuote_of_nest hn hc
    rw [textOf_append, textOf_pieces, ← hfront] at hout
    rw [hout, hfront, hcut]
    exact ⟨hall, by rw [nest_append, hms, Option.bind_some, hnest]⟩

end Firm

/-! ## Comments that are not neutral -/

section Contexts

variable {limit depth d : Nat} {t r front tail x : Text} {s : List Char}

/-- Why a text is not settled: in front of any other text a closing parenthesis goes from it, or it has a quote without
a partner. -/
theorem settle_eq_none (h : settle depth t = none) :
    (∃ i, i < t.length ∧ ∀ limit ≠ 0, ∀ r, (closerFlags limit depth (t ++ r))[i]? = some false) ∨
      ∃ t₁ q t₂ e, t = t₁ ++ q :: t₂ ∧ isQuote q = true ∧ q ∉ t₂ ∧ settle depth t₁ = some e := by
  fun_induction settle depth t with
  | case1 => cases h
  | case2 depth c rest n hn ih =>
    have hle := le_of_literalTail? hn
    have hlen : (c :: rest.take n).length = n + 1 := by rw [List.length_cons, List.length_take, Nat.min_eq_left hle]
    rcases ih h with ⟨i, hi, hflag⟩ | ⟨t₁, q, t₂, e, ht, hq, hno, he⟩
    · rw [List.length_drop] at hi
      refine .inl ⟨n + 1 + i, by rw [List.length_cons]; omega, fun limit hl r => ?_⟩
      rw [List.cons_append, closerFlags_literal hl (literalTail?_whole hn r), List.take_append_of_le_length hle, hlen,
        List.drop_append_of_le_length hle]
      exact flag_behind.mpr ⟨i, rfl, hflag limit hl r⟩
    · refine .inr ⟨c :: (rest.take n ++ t₁), q, t₂, e, ?_, hq, hno, ?_⟩
      · rw [List.cons_append, List.append_assoc, ← ht, List.take_append_drop]
      · have hn' : literalTail? c (rest.take n ++ rest.drop n) = some n := by rwa [List.take_append_drop]
        have htake : (rest.take n).length = n := by rw [List.length_take, Nat.min_eq_left hle]
        rw [settle_literal (literalTail?_append hn' (Nat.le_of_eq htake.symm) t₁), List.drop_left' htake, he]
  | case3 depth c rest hn hc =>
    rcases hc with hq | ⟨rfl, rfl⟩
    · exact .inr ⟨[], c, rest, depth, rfl, hq, literalTail?_eq_none_iff.mp hn hq, by rw [settle]⟩
    · refine .inl ⟨0, Nat.zero_lt_succ _, fun limit hl r => ?_⟩
      rw [List.cons_append, closerFlags_closer hl]
      rfl
  | case4 depth c rest hn hc ih =>
    have hquote : isQuote c = false := Bool.eq_false_iff.mpr fun hq => hc (.inl hq)
    rcases ih h with ⟨i, hi, hflag⟩ | ⟨t₁, q, t₂, e, rfl, hq, hno, he⟩
    · refine .inl ⟨i + 1, Nat.succ_lt_succ hi, fun limit hl r => ?_⟩
      rw [List.cons_append, closerFlags_code hl (literalTail?_of_code hquote _) fun hc' => hc (.inr hc'),
        List.getElem?_cons_succ]
      exact hflag limit hl r
    · exact .inr ⟨c :: t₁, q, t₂, e, rfl, hq, hno, by rw [settle_code (literalTail?_of_code hquote _) hc, he]⟩

/-- A run that is too long. -/
def deepRun : Text := List.replicate (threshold + 1) '('

/-- A comment behind a run that is too long, with a text in front of FROM and one behind the line of the comment. -/
def overNested (front t tail : Text) : Text := front ++ (fromWord ++ (deepRun ++ (t ++ '\n' :: tail)))

/-- A comment that ends at the end of a line. -/
def EndsLine (t : Text) : Prop := pieces (t ++ ['\n']) = [.region .comment t, .code '\n']

/-- Brackets are code. -/
theorem reads_brackets (h : ∀ c ∈ x, c ∈ ['(', ')', '[', ']']) (r : Text) : Reads x r (x.map .code) := by
  induction x with
  | nil => exact Reads.nil r
  | cons c x ih =>
    have hclass : ∀ c ∈ ['(', ')', '[', ']'], isQuote c = false ∧ c ≠ '#' ∧ c ≠ '/' ∧ c ≠ '-' := by decide
    obtain ⟨hq, h₁, h₂, h₃⟩ := hclass c (h c List.mem_cons_self)
    have hrest := ih fun d hd => h d (List.mem_cons_of_mem _ hd)
    rw [Reads, List.cons_append, pieces_code (regionTail?_of_ne hq h₁ h₂ h₃ _), hrest]
    rfl

/-- The comment stands alone in front of a line break, whatever follows. -/
theorem EndsLine.pieces_eq (ht : EndsLine t) (r : Text) :
    pieces (t ++ '\n' :: r) = .region .comment t :: .code '\n' :: pieces r := by
  have hne : t ≠ [] := fun hnil => by
    rw [EndsLine, hnil, List.nil_append, pieces_code (regionTail?_of_isBlank rfl []), pieces_nil] at ht
    cases ht
  obtain ⟨c, a, rfl⟩ := List.exists_cons_of_ne_nil hne
  have hreg := regionTail?_append_line (regionTail?_of_pieces (a := a) (r := ['\n']) ht) r
  have hline : regionTail? '\n' r = none := regionTail?_of_isBlank rfl r
  rw [List.cons_append, pieces_region hreg, List.take_left, List.drop_left, pieces_code hline]

theorem EndsLine.head? (ht : EndsLine t) : ∃ c a, t = c :: a ∧ (c = '#' ∨ c = '/' ∨ c = '-') := by
  have hp := ht.pieces_eq []
  have hm : Piece.region .comment t ∈ pieces (t ++ ['\n']) := by rw [hp]; exact List.mem_cons_self
  obtain ⟨c, a, rfl⟩ := List.exists_cons_of_ne_nil (region_ne_nil hm)
  rcases regionTail?_cases (regionTail?_of_pieces (a := a) (r := ['\n']) ht) with ⟨h, -⟩ | ⟨-, hc⟩
  · cases h
  · exact ⟨c, a, rfl, mark_of_commentTail? hc⟩

/-- The pieces of the text. -/
theorem pieces_overNested (ht : EndsLine t) (hf : ∀ c ∈ front, c ∈ ['(', ')', '[', ']']) (tail : Text) :
    pieces (overNested front t tail) = (front ++ (fromWord ++ deepRun)).map .code ++
      .region .comment t :: .code '\n' :: pieces tail := by
  have hrun : ∀ c ∈ deepRun, c ∈ ['(', ')', '[', ']'] := by decide
  rw [overNested, reads_brackets hf, reads_word isWord_fromWord, reads_brackets hrun, ht.pieces_eq]
  simp

/-- FROM is found behind brackets. -/
theorem findKeyword_behind_brackets (hf : ∀ c ∈ front, c ∈ ['(', ')', '[', ']']) {before : Option Char}
    (hb : before.any isWord = false) (x : Text) :
    findKeyword fromWord before (front ++ (fromWord ++ (deepRun ++ x))) = some front.length := by
  induction front generalizing before with
  | nil =>
    have hstart : startsKeyword fromWord before (fromWord ++ (deepRun ++ x)) = true :=
      startsKeyword_of_lower_eq rfl hb rfl
    rw [fromWord_eq] at hstart ⊢
    have hnone : regionTail? 'f' (['r', 'o', 'm'] ++ (deepRun ++ x)) = none :=
      regionTail?_of_ne (by decide) (by decide) (by decide) (by decide) _
    show findKeyword _ before ('f' :: (['r', 'o', 'm'] ++ (deepRun ++ x))) = some 0
    rw [findKeyword, hnone]
    exact if_pos hstart
  | cons c front ih =>
    have hclass : ∀ c ∈ ['(', ')', '[', ']'],
        (isQuote c = false ∧ c ≠ '#' ∧ c ≠ '/' ∧ c ≠ '-') ∧ isWord c = false ∧ c.toLower ≠ 'f' := by decide
    obtain ⟨⟨hq, h₁, h₂, h₃⟩, hw, hlower⟩ := hclass c (hf c List.mem_cons_self)
    have hstart : startsKeyword fromWord before (c :: (front ++ (fromWord ++ (deepRun ++ x)))) = false := by
      rw [startsKeyword, fromWord_eq, Text.starts]
      simp [Ne.symm hlower]
    rw [List.cons_append, findKeyword, regionTail?_of_ne hq h₁ h₂ h₃]
    simp only [hstart, Bool.false_eq_true, if_false]
    rw [ih (fun d hd => hf d (List.mem_cons_of_mem _ hd)) (by simpa using hw)]
    rfl

/-- The step behind FROM. -/
theorem unnest_deepRun (ht : EndsLine t) (r : Text) :
    unnestFlags (deepRun ++ (t ++ r)) =
        openerFlags (threshold + 1 - (dropClosers (threshold + 1) 0 (t ++ r)).2) deepRun ++
          closerFlags (threshold + 1) 0 (t ++ r) ∧
      (unnest (deepRun ++ (t ++ r))).1 =
        keepOpeners (threshold + 1 - (dropClosers (threshold + 1) 0 (t ++ r)).2) deepRun ++
          (dropClosers (threshold + 1) 0 (t ++ r)).1 := by
  have hcount : deepRun.count '(' = threshold + 1 := by decide
  have hlong : ¬ threshold + 1 ≤ threshold := Nat.not_succ_le_self threshold
  have hrun : openingRun (deepRun ++ (t ++ r)) = deepRun := by
    obtain ⟨c, a, rfl, hc⟩ := ht.head?
    refine takeWhile_whole (by decide) ?_
    rcases hc with rfl | rfl | rfl <;> rfl
  constructor
  · unfold unnestFlags
    simp only
    rw [hrun, hcount, if_neg hlong, List.drop_left]
  · unfold unnest
    simp only
    rw [hrun, hcount, if_neg hlong, List.drop_left]

/-- The step in the text, and the steps behind it. -/
theorem unnestFrom_overNested (hf : ∀ c ∈ front, c ∈ ['(', ')', '[', ']']) (t tail : Text) :
    removalFlags (overNested front t tail) = List.replicate (front ++ fromWord).length true ++
        merge (unnestFlags (deepRun ++ (t ++ '\n' :: tail)))
          (flagsFrom fromWord.getLast? (unnest (deepRun ++ (t ++ '\n' :: tail))).1) ∧
      removeRedundantBrackets (overNested front t tail) = (front ++ fromWord) ++
        (unnestFrom fromWord.getLast? (unnest (deepRun ++ (t ++ '\n' :: tail))).1).1 := by
  have hfind : findKeyword fromWord none (overNested front t tail) = some front.length :=
    findKeyword_behind_brackets hf rfl _
  have hsplit : overNested front t tail = (front ++ fromWord) ++ (deepRun ++ (t ++ '\n' :: tail)) := by
    rw [overNested, List.append_assoc]
  have hrest : (overNested front t tail).drop (front ++ fromWord).length = deepRun ++ (t ++ '\n' :: tail) := by
    rw [hsplit, List.drop_left]
  have htake : (overNested front t tail).take (front ++ fromWord).length = front ++ fromWord := by
    rw [hsplit, List.take_left]
  have hstep := flagsFrom_of_some hfind List.length_append.symm hrest
  rw [htake] at hstep
  exact hstep

/-- What the step takes away of the text behind the run. -/
theorem removalFlags_overNested (ht : EndsLine t) (hf : ∀ c ∈ front, c ∈ ['(', ')', '[', ']']) {i : Nat}
    (h : (closerFlags (threshold + 1) 0 (t ++ '\n' :: tail))[i]? = some false) :
    (removalFlags (overNested front t tail))[(front ++ fromWord).length + (deepRun.length + i)]? = some false := by
  have hlen := (openerFlags_spec (threshold + 1 - (dropClosers (threshold + 1) 0 (t ++ '\n' :: tail)).2) deepRun).1
  rw [(unnestFrom_overNested hf t tail).1]
  refine flag_behind.mpr ⟨_, rfl, merge_false ?_⟩
  rw [(unnest_deepRun ht _).1]
  exact flag_append.mpr (.inr ⟨i, by rw [hlen], h⟩)

/-! ## Texts that are not respected -/

/-- Closing parentheses take away from the depth. -/
theorem settle_closing (m d : Nat) : settle (m + d) (List.replicate m ')') = some d := by
  induction m with
  | zero => rw [List.replicate_zero, settle, Nat.zero_add]
  | succ m ih =>
    have hdepth : depthBehind (m + 1 + d) ')' = m + d := by
      simp only [depthBehind, if_neg (by decide : ')' ≠ '('), if_true]
      omega
    rw [List.replicate_succ, settle_code (literalTail?_of_code rfl _) (by simp [isQuote]), hdepth, ih]

/-- A text of closing parentheses and other characters that the removal passes over gives up what exceeds the depth. -/
theorem count_closerFlags (hx : ∀ c ∈ x, isQuote c = false ∧ c ≠ '(') (limit depth : Nat) :
    (closerFlags limit depth x).count false = min limit (x.count ')' - depth) := by
  induction x generalizing limit depth with
  | nil => simp [closerFlags]
  | cons c x ih =>
    obtain ⟨hq, ho⟩ := hx c List.mem_cons_self
    have ih := ih fun d hd => hx d (List.mem_cons_of_mem _ hd)
    by_cases hl : limit = 0
    · rw [hl, closerFlags_zero, List.count_replicate]
      simp
    · by_cases hc : c = ')'
      · subst hc
        cases depth with
        | zero =>
          rw [closerFlags_closer hl, List.count_cons_self, ih, List.count_cons_self]
          omega
        | succ depth =>
          have hdepth : depthBehind (depth + 1) ')' = depth := rfl
          rw [closerFlags_code hl (literalTail?_of_code hq _) (by simp), List.count_cons_of_ne (by decide), hdepth, ih,
            List.count_cons_self, Nat.add_sub_add_right]
      · have hdepth : depthBehind depth c = depth := by rw [depthBehind, if_neg ho, if_neg hc]
        rw [closerFlags_code hl (literalTail?_of_code hq _) fun h => hc h.1, List.count_cons_of_ne (by decide), hdepth,
          ih, List.count_cons_of_ne hc]

theorem pieces_brackets (h : ∀ c ∈ x, c ∈ ['(', ')', '[', ']']) : pieces x = x.map .code := by
  have hread := reads_brackets h []
  rwa [Reads, List.append_nil, pieces_nil, List.append_nil] at hread

theorem nest_closing (m : Nat) (s : List Char) (ps : List Piece) :
    nest (List.replicate m '(' ++ s) ((List.replicate m ')').map .code ++ ps) = nest s ps := by
  induction m with
  | zero => rfl
  | succ m ih =>
    rw [List.replicate_succ, List.replicate_succ, List.map_cons, List.cons_append, List.cons_append, nest_closer rfl,
      ih]

/-- The brackets that are open behind the comment. -/
theorem nest_overNested (ht : EndsLine t) (hf : ∀ c ∈ front, c ∈ ['(', ')', '[', ']'])
    (hs : nest [] (front.map .code) = some s) (tail : Text) :
    nest [] (pieces (overNested front t tail)) = nest (List.replicate (threshold + 1) '(' ++ s) (pieces tail) := by
  have hcount : deepRun.count '(' = threshold + 1 := by decide
  have hline : nest (List.replicate (threshold + 1) '(' ++ s) (.code '\n' :: pieces tail) =
      nest (List.replicate (threshold + 1) '(' ++ s) (pieces tail) := nest_code rfl rfl rfl _ _
  rw [pieces_overNested ht hf, List.map_append, List.append_assoc, nest_append, hs, Option.bind_some, List.map_append,
    List.append_assoc, nest_word isWord_fromWord, nest_run (by decide), hcount, nest_region, hline]

/-- No closing parenthesis stands directly behind a dash or a slash of code. -/
def Spaced (text : Text) : Prop :=
  ∀ c ∈ ['-', '/'], ¬ [.code c, .code ')'] <:+: pieces text

theorem firmIn_of_spaced {text : Text} (h : Spaced text) : FirmIn none (pieces text) := by
  intro ms ns he
  rcases List.eq_nil_or_concat ms with rfl | ⟨ms, p, rfl⟩
  · exact ⟨by decide, by decide⟩
  · rw [List.concat_eq_append, List.append_assoc] at he
    rw [List.concat_eq_append, codeBehind_append]
    cases p with
    | region kind u =>
      show Firm none
      exact ⟨by decide, by decide⟩
    | code c =>
      have hin : [.code c, .code ')'] <:+: pieces text := ⟨ms, ns, by rw [he, List.append_assoc]; rfl⟩
      constructor <;> (rintro ⟨⟩; exact h _ (by decide) hin)

/-- A balanced definition without a closing parenthesis behind a dash or a slash, all of whose comments are neutral
except for the comment `t`. -/
structure OnlyComment (t text : Text) : Prop where
  balanced : nest [] (pieces text) = some []
  spaced : Spaced text
  comments : ∀ u, .region .comment u ∈ pieces text → u = t ∨ Neutral u

/-- Removing the redundant parentheses respects a definition: only code goes, and what is left is balanced. -/
structure Respects (text : Text) : Prop where
  outside : ∀ i, (removalFlags text)[i]? = some false → regionAt? (regions text) i = none
  balanced : nest [] (pieces (removeRedundantBrackets text)) = some []

theorem onlyComment_overNested (ht : EndsLine t) (hf : ∀ c ∈ front, c ∈ ['(', ')', '[', ']'])
    (hs : nest [] (front.map .code) = some s)
    (hn : nest (List.replicate (threshold + 1) '(' ++ s) (pieces tail) = some [])
    (htail : ∀ p ∈ pieces tail, p.isComment = false ∧ p ≠ .code '-' ∧ p ≠ .code '/') :
    OnlyComment t (overNested front t tail) := by
  have hp := pieces_overNested ht hf tail
  have hmem : ∀ p ∈ pieces (overNested front t tail),
      p = .region .comment t ∨ p.isComment = false ∧ p ≠ .code '-' ∧ p ≠ .code '/' := fun p hm => by
    rw [hp, List.mem_append, List.mem_cons, List.mem_cons] at hm
    rcases hm with hm | rfl | rfl | hm
    · obtain ⟨c, hc, rfl⟩ := List.mem_map.mp hm
      refine .inr ⟨rfl, ?_⟩
      have hclass : ∀ c ∈ ['(', ')', '[', ']'] ++ (fromWord ++ deepRun), c ≠ '-' ∧ c ≠ '/' := by
        rw [fromWord_eq]
        decide
      obtain ⟨h₁, h₂⟩ := hclass c ((List.mem_append.mp hc).elim (fun h => List.mem_append_left _ (hf c h))
        (List.mem_append_right _))
      exact ⟨fun h => h₁ (Piece.code.inj h), fun h => h₂ (Piece.code.inj h)⟩
    · exact .inl rfl
    · exact .inr ⟨rfl, by decide, by decide⟩
    · exact .inr (htail p hm)
  refine ⟨by rw [nest_overNested ht hf hs, hn], fun c hc hin => ?_, fun u hu => ?_⟩
  · rcases hmem (.code c) (hin.subset List.mem_cons_self) with h | ⟨-, h₁, h₂⟩
    · cases h
    · rcases List.mem_cons.mp hc with rfl | hc
      · exact h₁ rfl
      · exact h₂ (by rw [List.mem_singleton.mp hc])
  · rcases hmem _ hu with h | ⟨h, -⟩
    · cases h
      exact .inl rfl
    · cases h

/-- A parenthesis of a region goes. -/
theorem not_respects_of_flag (ht : EndsLine t) (hf : ∀ c ∈ front, c ∈ ['(', ')', '[', ']']) {i : Nat}
    (h : (closerFlags (threshold + 1) 0 (t ++ '\n' :: tail))[i]? = some false) {ms ns : List Piece} {kind : RegionKind}
    {u : Text} (hp : pieces (t ++ '\n' :: tail) = ms ++ .region kind u :: ns) (h₁ : (textOf ms).length ≤ i)
    (h₂ : i < (textOf ms).length + u.length) : ¬ Respects (overNested front t tail) := by
  intro hrespects
  have hnone := hrespects.outside _ (removalFlags_overNested ht hf h)
  have hpieces : pieces (overNested front t tail) =
      ((front ++ (fromWord ++ deepRun)).map .code ++ ms) ++ .region kind u :: ns := by
    rw [pieces_overNested ht hf, ← ht.pieces_eq, hp, List.append_assoc]
  have hlen : (textOf ((front ++ (fromWord ++ deepRun)).map .code ++ ms)).length =
      (front ++ fromWord).length + deepRun.length + (textOf ms).length := by
    rw [textOf_append, textOf_map_code]
    simp only [List.length_append]
    omega
  rw [Interval.regionAt?_piece hpieces (by omega) (by simp only [Piece.text]; omega)] at hnone
  cases hnone

/-- The closing parentheses of the run. -/
def deepClosers : Text := List.replicate (threshold + 1) ')'

theorem mem_deepClosers : ∀ c ∈ deepClosers, c ∈ ['(', ')', '[', ']'] := by decide

/-- A comment in which a parenthesis is taken for one of the run is not respected. -/
theorem exists_of_parenthesis (ht : EndsLine t) {i : Nat} (hi : i < t.length)
    (h : ∀ r, (closerFlags (threshold + 1) 0 (t ++ r))[i]? = some false) :
    ∃ text, OnlyComment t text ∧ ¬ Respects text := by
  have htail : pieces deepClosers = deepClosers.map .code := pieces_brackets mem_deepClosers
  refine ⟨overNested [] t deepClosers, onlyComment_overNested ht (by simp) (s := []) rfl ?_ ?_, ?_⟩
  · rw [htail]
    decide
  · rw [htail]
    decide
  · have hp : pieces (t ++ '\n' :: deepClosers) = [] ++ .region .comment t :: .code '\n' :: pieces deepClosers :=
      ht.pieces_eq _
    exact not_respects_of_flag ht (by simp) (h _) hp (Nat.zero_le _) (by simpa using hi)

/-- The removal reads a literal from a quote without a partner up to the first quote behind it. -/
theorem closerFlags_of_quote {t₁ t₂ : Text} {q : Char} {e : Nat} (he : t = t₁ ++ q :: t₂) (hq : isQuote q = true)
    (hno : q ∉ t₂) (hs : settle 0 t₁ = some e) (hl : limit ≠ 0) (x : Text) :
    closerFlags limit 0 (t ++ '\n' :: q :: x) =
      List.replicate (t.length + 2) true ++ closerFlags limit e x := by
  have hliteral : literalTail? q (t₂ ++ ['\n'] ++ q :: x) = some ((t₂ ++ ['\n']).length + 1) :=
    literalTail?_eq_some_iff.mpr
      ⟨hq, _, _, rfl, by simpa [hno] using fun h : q = '\n' => absurd (h ▸ hq) (by decide), rfl⟩
  have hsplit : t ++ '\n' :: q :: x = t₁ ++ q :: (t₂ ++ ['\n'] ++ q :: x) := by rw [he]; simp
  have hcut : t₂ ++ ['\n'] ++ q :: x = (t₂ ++ ['\n', q]) ++ x := by simp
  have hlen : (t₂ ++ ['\n']).length + 1 = (t₂ ++ ['\n', q]).length := by simp
  rw [hsplit, closerFlags_of_settle hs hl, closerFlags_literal hl hliteral, hcut, hlen, List.take_left, List.drop_left,
    ← List.append_assoc, List.replicate_append_replicate, he]
  congr 2
  simp only [List.length_append, List.length_cons, List.length_nil]
  omega

/-- A comment with a quote without a partner is not respected: the quote makes code of the next literal. -/
theorem exists_of_quote (ht : EndsLine t) {t₁ t₂ : Text} {q : Char} {e : Nat} (he : t = t₁ ++ q :: t₂)
    (hq : isQuote q = true) (hno : q ∉ t₂) (hs : settle 0 t₁ = some e) :
    ∃ text, OnlyComment t text ∧ ¬ Respects text := by
  -- the literal holds one parenthesis more than are open at the quote
  generalize hbody : List.replicate (e + 1) ')' = body
  have hmem : q ∉ body := fun hm => by
    rw [← hbody] at hm
    rw [List.eq_of_mem_replicate hm] at hq
    cases hq
  have hclosers : pieces deepClosers = deepClosers.map .code := pieces_brackets mem_deepClosers
  have htail : pieces (q :: (body ++ q :: deepClosers)) =
      .region .literal (q :: (body ++ [q])) :: deepClosers.map .code := by
    have h := reads_literal hq hmem deepClosers
    rw [Reads, hclosers] at h
    simpa using h
  -- the last parenthesis of the literal is taken for one of the run
  have hflag : (closerFlags (threshold + 1) 0 (t ++ '\n' :: q :: (body ++ q :: deepClosers)))[t.length + 2 + e]? =
      some false := by
    have hbody' : body ++ q :: deepClosers = List.replicate e ')' ++ ')' :: q :: deepClosers := by
      rw [← hbody, List.replicate_succ', List.append_assoc]
      rfl
    have hl : threshold + 1 ≠ 0 := Nat.succ_ne_zero _
    have hsettle := settle_closing e 0
    rw [Nat.add_zero] at hsettle
    rw [closerFlags_of_quote he hq hno hs hl, hbody', closerFlags_of_settle hsettle hl, closerFlags_closer hl,
      List.length_replicate]
    exact flag_behind.mpr ⟨e, rfl, flag_behind.mpr ⟨0, rfl, rfl⟩⟩
  have hbodylen : body.length = e + 1 := by rw [← hbody, List.length_replicate]
  refine ⟨overNested [] t (q :: (body ++ q :: deepClosers)),
    onlyComment_overNested ht (by simp) (s := []) rfl ?_ ?_, ?_⟩
  · rw [htail, nest_region]
    decide
  · rw [htail]
    intro p hp
    rcases List.mem_cons.mp hp with rfl | hp
    · exact ⟨rfl, by simp, by simp⟩
    · exact (by decide : ∀ p ∈ deepClosers.map Piece.code, p.isComment = false ∧ p ≠ .code '-' ∧ p ≠ .code '/') p hp
  · have hp : pieces (t ++ '\n' :: q :: (body ++ q :: deepClosers)) =
        [.region .comment t, .code '\n'] ++ .region .literal (q :: (body ++ [q])) :: deepClosers.map .code := by
      rw [ht.pieces_eq, htail]
      rfl
    refine not_respects_of_flag ht (by simp) hflag hp ?_ ?_
    · simp [Piece.text]
      omega
    · simp [Piece.text, hbodylen]
      omega

/-- What stands behind a run that goes with the parentheses behind a comment. -/
theorem unnest_of_settle (ht : EndsLine t) (hs : settle 0 t = some d) {x : Text}
    (hx : ∀ c ∈ x, isQuote c = false ∧ c ≠ '(') (hcount : threshold + 1 ≤ x.count ')' - d) :
    (unnest (deepRun ++ (t ++ '\n' :: x))).1 =
      t ++ select (closerFlags (threshold + 1) d ('\n' :: x)) ('\n' :: x) := by
  have hl : threshold + 1 ≠ 0 := Nat.succ_ne_zero _
  obtain ⟨-, hkept, -, hdropped⟩ := closerFlags_spec (threshold + 1) 0 (t ++ '\n' :: x)
  rw [closerFlags_of_settle hs hl] at hkept hdropped
  have hnumber : (dropClosers (threshold + 1) 0 (t ++ '\n' :: x)).2 = threshold + 1 := by
    have hx' : ∀ c ∈ '\n' :: x, isQuote c = false ∧ c ≠ '(' := fun c hc =>
      (List.mem_cons.mp hc).elim (fun h => h ▸ ⟨rfl, by decide⟩) (hx c)
    rw [← hdropped, List.count_append, List.count_replicate, count_closerFlags hx', List.count_cons_of_ne (by decide)]
    simpa using Nat.min_eq_left hcount
  have hnone : keepOpeners 0 deepRun = [] := by decide
  rw [(unnest_deepRun ht _).2, hnumber, Nat.sub_self, hnone, ← hkept, select_append List.length_replicate, select_all]
  rfl

/-- No FROM stands where no code is its first letter. -/
theorem findKeyword_eq_none {text : Text} {before : Option Char} (h : ∀ c, .code c ∈ pieces text → c.toLower ≠ 'f') :
    findKeyword fromWord before text = none := by
  rw [findKeyword_eq_firstIn, firstIn_eq_none_iff]
  intro ms c ns he
  have hc := h c (by rw [he]; simp)
  rw [startsKeyword, fromWord_eq, Text.starts]
  simp [Ne.symm hc]

theorem pieces_closers (hx : ∀ c ∈ x, c = ')' ∨ c = ']') : pieces x = x.map .code :=
  pieces_brackets fun c hc => by rcases hx c hc with rfl | rfl <;> decide

/-- Behind a comment with an opening parenthesis too many the first closing parenthesis stays. -/
theorem removeRedundantBrackets_overNested (ht : EndsLine t) (hf : ∀ c ∈ front, c ∈ ['(', ')', '[', ']'])
    (hs : settle 0 t = some (d + 1)) (hx : ∀ c ∈ x, c = ')' ∨ c = ']')
    (hcount : threshold + 1 ≤ (')' :: x).count ')' - (d + 1)) :
    ∃ y, removeRedundantBrackets (overNested front t (')' :: x)) = (front ++ fromWord) ++ (t ++ '\n' :: ')' :: y) ∧
      ∀ c ∈ y, c = ')' ∨ c = ']' := by
  have hl : threshold + 1 ≠ 0 := Nat.succ_ne_zero _
  have hleft := unnest_of_settle ht hs (x := ')' :: x)
    (fun c hc => by rcases (List.mem_cons.mp hc).elim .inl (hx c) with rfl | rfl <;> exact ⟨rfl, by decide⟩) hcount
  rw [closerFlags_code hl (literalTail?_of_code rfl _) (by simp),
    closerFlags_code hl (literalTail?_of_code rfl _) (by simp [depthBehind]), select, select] at hleft
  generalize hy : select (closerFlags (threshold + 1) (depthBehind (depthBehind (d + 1) '\n') ')') x) x = y at hleft
  have hmem : ∀ c ∈ y, c = ')' ∨ c = ']' := fun c hc => hx c ((select_sublist _ _).subset (hy ▸ hc))
  have hnone : findKeyword fromWord fromWord.getLast? (t ++ '\n' :: ')' :: y) = none := by
    refine findKeyword_eq_none fun c hc => ?_
    rw [ht.pieces_eq, pieces_closers fun c hc => (List.mem_cons.mp hc).elim .inl (hmem c)] at hc
    simp only [List.map_cons, List.mem_cons, Piece.code.injEq, List.mem_map, exists_eq_right, reduceCtorEq,
      false_or] at hc
    rcases hc with rfl | rfl | hc
    · decide
    · decide
    · rcases hmem c hc with rfl | rfl <;> decide
  exact ⟨y, by rw [(unnestFrom_overNested hf t _).2, hleft, (flagsFrom_of_none hnone).2], hmem⟩

/-- A comment with an opening parenthesis without a partner is not respected: it is taken for one that is closed behind
the comment, and the run goes with the parenthesis of a bracket around it. -/
theorem exists_of_depth (ht : EndsLine t) (hs : settle 0 t = some (d + 1)) :
    ∃ text, OnlyComment t text ∧ ¬ Respects text := by
  generalize hfront : List.replicate (d + 1) '(' ++ ['['] = front
  generalize htail : List.replicate threshold ')' ++ ']' :: List.replicate (d + 1) ')' = tail
  have hfrontmem : ∀ c ∈ front, c ∈ ['(', ')', '[', ']'] := by
    rw [← hfront]
    intro c hc
    rcases List.mem_append.mp hc with hc | hc
    · rw [List.eq_of_mem_replicate hc]
      decide
    · rw [List.mem_singleton.mp hc]
      decide
  have htailmem : ∀ c ∈ tail, c = ')' ∨ c = ']' := by
    rw [← htail]
    intro c hc
    rcases List.mem_append.mp hc with hc | hc
    · exact .inl (List.eq_of_mem_replicate hc)
    · exact (List.mem_cons.mp hc).symm.imp_left List.eq_of_mem_replicate
  have hpieces : pieces (')' :: tail) = (')' :: tail).map .code :=
    pieces_closers fun c hc => (List.mem_cons.mp hc).elim .inl (htailmem c)
  have hopen : nest [] (front.map .code) = some ('[' :: List.replicate (d + 1) '(') := by
    have hclass : ∀ c ∈ List.replicate (d + 1) '(', c = '(' ∨ isBlank c = true := fun c hc =>
      .inl (List.eq_of_mem_replicate hc)
    have hrun := nest_run hclass [] [.code '[']
    rw [← hfront, List.map_append, List.map_singleton, hrun, List.count_replicate_self, List.append_nil]
    exact nest_open rfl _ []
  refine ⟨overNested front t (')' :: tail), onlyComment_overNested ht hfrontmem hopen ?_ ?_, fun hrespects => ?_⟩
  · have hclose := nest_closing (d + 1) [] []
    simp only [List.append_nil] at hclose
    rw [hpieces, List.map_cons, List.replicate_succ, List.cons_append, nest_closer rfl, ← htail, List.map_append,
      nest_closing, List.map_cons, nest_closer rfl, hclose]
    rfl
  · rw [hpieces]
    intro p hp
    obtain ⟨c, hc, rfl⟩ := List.mem_map.mp hp
    rcases (List.mem_cons.mp hc).elim .inl (htailmem c) with rfl | rfl <;> exact ⟨rfl, by decide, by decide⟩
  · -- the first closing parenthesis behind the comment stays, and meets the bracket
    have hcount : threshold + 1 ≤ (')' :: tail).count ')' - (d + 1) := by
      rw [← htail, List.count_cons_self, List.count_append, List.count_replicate_self,
        List.count_cons_of_ne (by decide), List.count_replicate_self]
      omega
    obtain ⟨y, hout, hmem⟩ := removeRedundantBrackets_overNested ht hfrontmem hs htailmem hcount
    have hread : pieces ((front ++ fromWord) ++ (t ++ '\n' :: ')' :: y)) =
        front.map .code ++ (fromWord.map .code ++ .region .comment t :: .code '\n' :: (')' :: y).map .code) := by
      rw [List.append_assoc, reads_brackets hfrontmem, reads_word isWord_fromWord, ht.pieces_eq,
        pieces_closers fun c hc => (List.mem_cons.mp hc).elim .inl (hmem c)]
    have hbalanced := hrespects.balanced
    rw [hout, hread, nest_append, hopen, Option.bind_some, nest_word isWord_fromWord, nest_region] at hbalanced
    cases hbalanced

/-- **Comments among the joins.** What goes is what the flags say. Removing the redundant parentheses respects every
balanced definition whose other comments are neutral, and in which no closing parenthesis stands directly behind a dash
or a slash, exactly if the comment is neutral as well. -/
theorem respects_iff_neutral (ht : EndsLine t) :
    (∀ text, select (removalFlags text) text = removeRedundantBrackets text) ∧
      ((∀ text, OnlyComment t text → Respects text) ↔ Neutral t) := by
  refine ⟨fun text => (flagsFrom_spec none text).2, ?_, ?_⟩
  · intro h
    have hno : ¬ ∃ text, OnlyComment t text ∧ ¬ Respects text := fun ⟨text, honly, hnot⟩ => hnot (h text honly)
    cases hs : settle 0 t with
    | none =>
      exfalso
      rcases settle_eq_none hs with ⟨i, hi, hflag⟩ | ⟨t₁, q, t₂, e, he, hq, hq', hsettle⟩
      · exact hno (exists_of_parenthesis ht hi (hflag _ (Nat.succ_ne_zero _)))
      · exact hno (exists_of_quote ht he hq hq' hsettle)
    | some depth =>
      cases depth with
      | zero => exact hs
      | succ depth => exact absurd (exists_of_depth ht hs) hno
  · intro hneutral text honly
    have hregions : ∀ kind u, .region kind u ∈ pieces text → Neutral u := fun kind u hu => by
      cases kind with
      | literal => exact neutral_of_literal hu
      | comment => exact (honly.comments u hu).elim (fun h => h ▸ hneutral) id
    obtain ⟨hremoves, hnest⟩ := removes_unnestFrom none text honly.balanced hregions
      (firmIn_of_spaced honly.spaced)
    refine ⟨fun i hi => ?_, hnest⟩
    obtain ⟨ms, c, ns, hp, hms, -⟩ := hremoves.parenthesis hi
    exact (Interval.code_at hp hms).2

/-- A lone parenthesis in a comment is taken for one of a run of eleven, and the last one of the run stays. -/
theorem not_respects_lone_parenthesis :
    let t := "# :)".toList
    let text := "select * from (((((((((((a # :)\n)))))))))))".toList
    EndsLine t ∧ ¬ Neutral t ∧ (¬ ∀ text, OnlyComment t text → Respects text) ∧
      OnlyComment t text ∧ (removalFlags text)[30]? = some false ∧ (regionAt? (regions text) 30).isSome ∧
      removeRedundantBrackets text = "select * from a # :\n)".toList ∧ ¬ Respects text := by
  intro t text
  have htext : nest [] (pieces text) = some [] ∧ (∀ c ∈ ['-', '/'], ¬ [.code c, .code ')'] <:+: pieces text) ∧
      ∀ p ∈ pieces text, p.isComment = true → p.text = t := by decide +kernel
  obtain ⟨hnest, hspaced, hcomment⟩ := htext
  have ht : EndsLine t := by unfold EndsLine; decide +kernel
  have hneutral : ¬ Neutral t := by unfold Neutral; decide +kernel
  have hout : removeRedundantBrackets text = "select * from a # :\n)".toList := by decide +kernel
  have honly : OnlyComment t text := ⟨hnest, hspaced, fun u hu => .inl (hcomment _ hu rfl)⟩
  refine ⟨ht, hneutral, fun h => hneutral ((respects_iff_neutral ht).2.mp h), honly, by decide +kernel,
    by decide +kernel, hout, fun h => ?_⟩
  have hbalanced := h.balanced
  rw [hout] at hbalanced
  exact absurd hbalanced (by decide +kernel)

end Contexts

end SqlDialect.View
