import SqlDialect.Split
import SqlDialect.Proofs.Trim

/-!
# Nested brackets among pieces

`nest stack ps` follows the brackets of some pieces and gives the ones that are open behind them, or nothing if a
bracket is closed that is not open or a quote has no partner. Pieces from the empty stack to the empty stack are
*balanced*.

* `nest_cons_iff`, `nest_snoc_iff`: what the first piece and the last one do to the open brackets.
* `nest_close`: in balanced pieces every bracket is closed.
* `nest_induction`: induction from the right, with a closed bracket and what it encloses in one step.
* `closingIn_iff`: the closing bracket that is found is the one behind balanced pieces.
* `splitPieces_of_nest`: the parts of balanced pieces are balanced.
-/

namespace SqlDialect

/-! ## The open brackets -/

/-- The brackets that are open behind some pieces, the innermost first, if `stack` is open before them. -/
def nest (stack : List Char) : List Piece → Option (List Char)
  | [] => some stack
  | .region _ _ :: ps => nest stack ps
  | .code c :: ps =>
    if isQuote c then none
    else if isOpener c then nest (c :: stack) ps
    else
      match openerOf? c, stack with
      | none, _ => nest stack ps
      | some _, [] => none
      | some o, top :: outer => if top = o then nest outer ps else none

@[simp] theorem nest_nil (stack : List Char) : nest stack [] = some stack := rfl

@[simp] theorem nest_region (stack : List Char) (kind : RegionKind) (t : Text) (ps : List Piece) :
    nest stack (.region kind t :: ps) = nest stack ps := rfl

theorem nest_append (stack : List Char) (ps qs : List Piece) :
    nest stack (ps ++ qs) = (nest stack ps).bind (nest · qs) := by
  induction ps generalizing stack with
  | nil => rfl
  | cons p ps ih =>
    cases p with
    | region kind t => exact ih stack
    | code c =>
      simp only [List.cons_append, nest]
      split
      · rfl
      · split
        · exact ih _
        · split
          · exact ih _
          · rfl
          · split
            · exact ih _
            · rfl

/-- What a code character that is neither a bracket nor a quote does. -/
theorem nest_code {c : Char} (hq : isQuote c = false) (ho : isOpener c = false) (hc : isCloser c = false)
    (stack : List Char) (ps : List Piece) : nest stack (.code c :: ps) = nest stack ps := by
  have hn : openerOf? c = none := by simpa [isCloser] using hc
  simp [nest, hq, ho, hn]

/-- Characters that are neither brackets nor quotes leave the open brackets as they are. -/
theorem nest_map_code {t : Text} (h : ∀ c ∈ t, isQuote c = false ∧ isOpener c = false ∧ isCloser c = false)
    (stack : List Char) (ps : List Piece) : nest stack (t.map .code ++ ps) = nest stack ps := by
  induction t with
  | nil => rfl
  | cons c t ih =>
    obtain ⟨h1, h2, h3⟩ := h c List.mem_cons_self
    rw [List.map_cons, List.cons_append, nest_code h1 h2 h3, ih fun d hd => h d (List.mem_cons_of_mem _ hd)]

/-- The characters of a class without brackets and quotes. -/
theorem neutral_of_class {p : Char → Bool}
    (hp : ∀ d ∈ ['\'', '"', '\x60', '(', ')', '[', ']', '{', '}'], p d = false) {c : Char} (hc : p c = true) :
    isQuote c = false ∧ isOpener c = false ∧ isCloser c = false := by
  have hne : ∀ d ∈ ['\'', '"', '\x60', '(', ')', '[', ']', '{', '}'], c ≠ d := fun d hd e => by
    rw [e, hp d hd] at hc
    cases hc
  have ho : closerOf? c = none := by
    unfold closerOf?
    split
    · exact absurd rfl (hne '(' (by decide))
    · exact absurd rfl (hne '[' (by decide))
    · exact absurd rfl (hne '{' (by decide))
    · rfl
  have hcl : openerOf? c = none := by
    unfold openerOf?
    split
    · exact absurd rfl (hne ')' (by decide))
    · exact absurd rfl (hne ']' (by decide))
    · exact absurd rfl (hne '}' (by decide))
    · rfl
  refine ⟨?_, by simp [isOpener, ho], by simp [isCloser, hcl]⟩
  simp only [isQuote, Bool.or_eq_false_iff, decide_eq_false_iff_not]
  exact ⟨⟨hne _ (by decide), hne _ (by decide)⟩, hne _ (by decide)⟩

theorem nest_spaces {t : Text} (ht : ∀ c ∈ t, isSpace c = true) (stack : List Char) (ps : List Piece) :
    nest stack (t.map .code ++ ps) = nest stack ps :=
  nest_map_code (fun c hc => neutral_of_class (by decide) (ht c hc)) stack ps

theorem nest_word {t : Text} (ht : ∀ c ∈ t, isWord c = true) (stack : List Char) (ps : List Piece) :
    nest stack (t.map .code ++ ps) = nest stack ps :=
  nest_map_code (fun c hc => neutral_of_class (by decide) (ht c hc)) stack ps

theorem isQuote_of_isOpener {c : Char} (h : isOpener c = true) : isQuote c = false := by
  unfold isOpener closerOf? at h
  split at h <;> first | rfl | cases h

theorem isQuote_of_isCloser {c : Char} (h : isCloser c = true) : isQuote c = false := by
  unfold isCloser openerOf? at h
  split at h <;> first | rfl | cases h

theorem isOpener_of_isCloser {c : Char} (h : isCloser c = true) : isOpener c = false := by
  unfold isCloser openerOf? at h
  split at h <;> first | rfl | cases h

theorem isCloser_of_openerOf? {o d : Char} (h : openerOf? d = some o) : isCloser d = true := by
  rw [isCloser, h]
  rfl

theorem isOpener_of_openerOf? {o d : Char} (h : openerOf? d = some o) : isOpener o = true := by
  rw [isOpener, closerOf?_eq_some_iff.mpr h]
  rfl

/-- An opening bracket is put on the stack. -/
theorem nest_open {o : Char} (ho : isOpener o = true) (stack : List Char) (ps : List Piece) :
    nest stack (.code o :: ps) = nest (o :: stack) ps := by
  simp [nest, isQuote_of_isOpener ho, ho]

/-- A closing bracket takes its partner from the stack. -/
theorem nest_closer {o d : Char} (hd : openerOf? d = some o) (stack : List Char) (ps : List Piece) :
    nest (o :: stack) (.code d :: ps) = nest stack ps := by
  have hcloser := isCloser_of_openerOf? hd
  simp [nest, isQuote_of_isCloser hcloser, isOpener_of_isCloser hcloser, hd]

/-- What one piece does to the open brackets. -/
inductive NestStep : List Char → Piece → List Char → Prop where
  /-- A region leaves them as they are. -/
  | region (s : List Char) (kind : RegionKind) (t : Text) : NestStep s (.region kind t) s
  /-- An opening bracket is one more. -/
  | opener (s : List Char) {o : Char} : isOpener o = true → NestStep s (.code o) (o :: s)
  /-- A closing bracket takes its partner away. -/
  | closer (s : List Char) {o d : Char} : openerOf? d = some o → NestStep (o :: s) (.code d) s
  /-- Any other character that is no quote leaves them as they are. -/
  | plain (s : List Char) {c : Char} : isQuote c = false → isOpener c = false → isCloser c = false →
      NestStep s (.code c) s

theorem NestStep.nest_cons {s s' : List Char} {p : Piece} (h : NestStep s p s') (ps : List Piece) :
    nest s (p :: ps) = nest s' ps := by
  cases h with
  | region => rfl
  | opener _ ho => exact nest_open ho _ ps
  | closer _ hd => exact nest_closer hd _ ps
  | plain _ hq ho hc => exact nest_code hq ho hc _ ps

/-- **The first piece**, and what is open behind it. -/
theorem nest_cons_iff {s t : List Char} {p : Piece} {ps : List Piece} :
    nest s (p :: ps) = some t ↔ ∃ s', NestStep s p s' ∧ nest s' ps = some t := by
  refine ⟨fun h => ?_, fun ⟨s', hstep, h⟩ => (hstep.nest_cons ps).trans h⟩
  cases p with
  | region kind u => exact ⟨s, .region s kind u, h⟩
  | code c =>
    by_cases hq : isQuote c = true
    · simp [nest, hq] at h
    · by_cases ho : isOpener c = true
      · exact ⟨c :: s, .opener s ho, by rwa [nest_open ho] at h⟩
      · cases hc : openerOf? c with
        | none =>
          have hstep : NestStep s (.code c) s :=
            .plain s (by simpa using hq) (by simpa using ho) (by simp [isCloser, hc])
          exact ⟨s, hstep, (hstep.nest_cons ps).symm.trans h⟩
        | some o =>
          cases s with
          | nil => simp [nest, hq, ho, hc] at h
          | cons top outer =>
            by_cases he : top = o
            · subst he
              exact ⟨outer, .closer outer hc, by rwa [nest_closer hc] at h⟩
            · simp [nest, hq, ho, hc, he] at h

/-- A single piece. -/
theorem nest_single {s t : List Char} {p : Piece} (h : nest s [p] = some t) : NestStep s p t := by
  obtain ⟨s', hstep, h⟩ := nest_cons_iff.mp h
  cases h
  exact hstep

theorem NestStep.isQuote {s s' : List Char} {c : Char} (h : NestStep s (.code c) s') : isQuote c = false := by
  cases h with
  | opener _ ho => exact isQuote_of_isOpener ho
  | closer _ hd => exact isQuote_of_isCloser (isCloser_of_openerOf? hd)
  | plain _ hq => exact hq

/-- Where no bracket is open, none is closed. -/
theorem NestStep.isCloser {t : List Char} {c : Char} (h : NestStep [] (.code c) t) : isCloser c = false := by
  cases h with
  | opener _ ho => exact Bool.eq_false_iff.mpr fun hc => by simp [isOpener_of_isCloser hc] at ho
  | plain _ _ _ hc => exact hc

/-- Further brackets may be open on the outside. -/
theorem NestStep.frame {s s' : List Char} {p : Piece} (h : NestStep s p s') (base : List Char) :
    NestStep (s ++ base) p (s' ++ base) := by
  cases h with
  | region => exact .region _ _ _
  | opener _ ho => exact .opener _ ho
  | closer _ hd => exact .closer _ hd
  | plain _ hq ho hc => exact .plain _ hq ho hc

/-- A piece within a bracket closes it or does not touch what is open on the outside. -/
theorem NestStep.of_frame {s stack t : List Char} {o : Char} {p : Piece} (h : NestStep (s ++ o :: stack) p t) :
    (s = [] ∧ ∃ d, p = .code d ∧ openerOf? d = some o ∧ t = stack) ∨
      ∃ s', t = s' ++ o :: stack ∧ NestStep s p s' := by
  generalize hu : s ++ o :: stack = u at h
  cases h with
  | region _ kind text => exact .inr ⟨s, hu.symm, .region s kind text⟩
  | opener _ ho => exact .inr ⟨_ :: s, by rw [← hu, List.cons_append], .opener s ho⟩
  | closer _ hd =>
    cases s with
    | nil =>
      cases hu
      exact .inl ⟨rfl, _, rfl, hd, rfl⟩
    | cons top s =>
      cases hu
      exact .inr ⟨s, rfl, .closer s hd⟩
  | plain _ hq ho hc => exact .inr ⟨s, hu.symm, .plain s hq ho hc⟩

/-- Further brackets may be open on the outside. -/
theorem nest_frame {stack stack' : List Char} {ps : List Piece} (h : nest stack ps = some stack') (base : List Char) :
    nest (stack ++ base) ps = some (stack' ++ base) := by
  induction ps generalizing stack with
  | nil =>
    cases h
    rfl
  | cons p ps ih =>
    obtain ⟨s, hstep, hrest⟩ := nest_cons_iff.mp h
    rw [(hstep.frame base).nest_cons]
    exact ih hrest

/-- No quote without a partner stands among pieces whose brackets match. -/
theorem isQuote_of_nest {stack stack' : List Char} {ps : List Piece} (h : nest stack ps = some stack') {q : Char}
    (hm : .code q ∈ ps) : isQuote q = false := by
  obtain ⟨ps, qs, rfl⟩ := List.append_of_mem hm
  rw [nest_append] at h
  obtain ⟨s, -, hs⟩ := Option.bind_eq_some_iff.mp h
  obtain ⟨s', hstep, -⟩ := nest_cons_iff.mp hs
  exact hstep.isQuote

/-- **A bracket is closed.** If no more brackets are open in the end than outside of a bracket, the bracket is closed
behind balanced pieces. -/
theorem nest_close {s stack stack' : List Char} {o : Char} {ps : List Piece}
    (h : nest (s ++ o :: stack) ps = some stack') (hl : stack'.length ≤ stack.length) :
    ∃ qs d rs, ps = qs ++ .code d :: rs ∧ nest s qs = some [] ∧ openerOf? d = some o ∧
      nest stack rs = some stack' := by
  induction ps generalizing s with
  | nil =>
    simp only [nest_nil, Option.some.injEq] at h
    rw [← h] at hl
    simp only [List.length_append, List.length_cons] at hl
    omega
  | cons p ps ih =>
    obtain ⟨t, hstep, hrest⟩ := nest_cons_iff.mp h
    rcases hstep.of_frame with ⟨rfl, d, rfl, hd, rfl⟩ | ⟨s', rfl, hstep'⟩
    · exact ⟨[], d, ps, rfl, rfl, hd, hrest⟩
    · obtain ⟨qs, d, rs, rfl, hqs, hd, hrs⟩ := ih hrest
      exact ⟨p :: qs, d, rs, rfl, (hstep'.nest_cons qs).trans hqs, hd, hrs⟩

/-! ## Balanced pieces -/

/-- Pieces up to a place have brackets of their own. -/
theorem nest_prefix {s t : List Char} {ps qs : List Piece} (h : nest s (ps ++ qs) = some t) :
    ∃ u, nest s ps = some u ∧ nest u qs = some t := by
  rw [nest_append] at h
  exact Option.bind_eq_some_iff.mp h

/-- Behind balanced pieces the rest of balanced pieces is balanced. -/
theorem nest_rest {s t : List Char} {ps qs : List Piece} (h : nest s (ps ++ qs) = some t) (hp : nest s ps = some s) :
    nest s qs = some t := by
  rw [nest_append, hp] at h
  exact h

/-- Balanced pieces leave the brackets that are open before them as they are. -/
theorem nest_balanced {ps : List Piece} (h : nest [] ps = some []) (s : List Char) : nest s ps = some s := by
  have := nest_frame h s
  simpa using this

/-- The rest of balanced pieces is balanced only behind balanced ones. -/
theorem nest_left {ps qs : List Piece} (h : nest [] (ps ++ qs) = some []) (hq : nest [] qs = some []) :
    nest [] ps = some [] := by
  obtain ⟨u, hu, hrest⟩ := nest_prefix h
  rw [nest_balanced hq] at hrest
  rw [hu, hrest]

theorem nest_balanced_append {ps : List Piece} (h : nest [] ps = some []) (s : List Char) (qs : List Piece) :
    nest s (ps ++ qs) = nest s qs := by
  rw [nest_append, nest_balanced h, Option.bind_some]

/-- Balanced pieces in brackets leave the open brackets as they are. -/
theorem nest_enclosed {zs : List Piece} {o d : Char} (hz : nest [] zs = some []) (hd : openerOf? d = some o)
    (s : List Char) : nest s (.code o :: (zs ++ [.code d])) = some s := by
  rw [nest_open (isOpener_of_openerOf? hd), nest_balanced_append hz, nest_closer hd, nest_nil]

/-- **The last piece**, and what is open in front of it. -/
theorem nest_snoc_iff {s t : List Char} {ms : List Piece} {p : Piece} :
    nest s (ms ++ [p]) = some t ↔ ∃ u, nest s ms = some u ∧ NestStep u p t := by
  constructor
  · intro h
    obtain ⟨u, hms, hp⟩ := nest_prefix h
    exact ⟨u, hms, nest_single hp⟩
  · rintro ⟨u, hms, hstep⟩
    rw [nest_append, hms, Option.bind_some, hstep.nest_cons, nest_nil]

/-- **The last open bracket.** Where it is opened the others are open, and balanced pieces follow it. -/
theorem nest_last_open {s : List Char} {o : Char} {ps : List Piece} (h : nest [] ps = some (o :: s)) :
    ∃ qs zs, ps = qs ++ .code o :: zs ∧ nest [] qs = some s ∧ nest [] zs = some [] := by
  induction hlen : ps.length using Nat.strongRecOn generalizing ps s o with
  | ind n ih =>
    rcases List.eq_nil_or_concat ps with rfl | ⟨ms, p, rfl⟩
    · cases h
    · rw [List.concat_eq_append] at h hlen ⊢
      rw [List.length_append, List.length_singleton] at hlen
      obtain ⟨u, hms, hstep⟩ := nest_snoc_iff.mp h
      -- a piece that opens and closes nothing stands among the balanced ones
      have hkeep : nest [] ms = some (o :: s) → NestStep [] p [] → ∃ qs zs, ms ++ [p] = qs ++ .code o :: zs ∧
          nest [] qs = some s ∧ nest [] zs = some [] := by
        intro hms hstep
        obtain ⟨qs, zs, rfl, hqs, hzs⟩ := ih ms.length (by omega) hms rfl
        exact ⟨qs, zs ++ [p], by simp, hqs, nest_snoc_iff.mpr ⟨[], hzs, hstep⟩⟩
      cases hstep with
      | region _ kind text => exact hkeep hms (.region [] kind text)
      | plain _ hq ho hc => exact hkeep hms (.plain [] hq ho hc)
      | opener _ ho => exact ⟨ms, [], rfl, hms, rfl⟩
      | @closer _ o' d hd =>
        -- the bracket closes one that was opened behind the open one
        obtain ⟨qs, zs, rfl, hqs, hzs⟩ := ih ms.length (by omega) hms rfl
        have hlt : qs.length < n := by
          rw [List.length_append, List.length_cons] at hlen
          omega
        obtain ⟨qs', zs', rfl, hqs', hzs'⟩ := ih qs.length hlt hqs rfl
        refine ⟨qs', zs' ++ (.code o' :: (zs ++ [.code d])), by simp, hqs', ?_⟩
        rw [nest_balanced_append hzs', nest_enclosed hzs hd]

/-- **Induction from the right.** A bracket that is closed is taken together with all that it encloses. -/
theorem nest_induction {motive : List Piece → List Char → Prop} (nil : motive [] [])
    (opener : ∀ ms s c, nest [] ms = some s → isOpener c = true → motive ms s → motive (ms ++ [.code c]) (c :: s))
    (enclosed : ∀ qs s zs o d, nest [] qs = some s → nest [] zs = some [] → openerOf? d = some o → motive qs s →
      motive (qs ++ .code o :: (zs ++ [.code d])) s)
    (single : ∀ ms s p, nest [] ms = some s → NestStep [] p [] → motive ms s → motive (ms ++ [p]) s)
    {ps : List Piece} {s : List Char} (h : nest [] ps = some s) : motive ps s := by
  induction hlen : ps.length using Nat.strongRecOn generalizing ps s with
  | ind n ih =>
    rcases List.eq_nil_or_concat ps with rfl | ⟨ms, p, rfl⟩
    · cases h
      exact nil
    · rw [List.concat_eq_append] at h hlen ⊢
      rw [List.length_append, List.length_singleton] at hlen
      obtain ⟨u, hms, hstep⟩ := nest_snoc_iff.mp h
      have hind := ih ms.length (by omega) hms rfl
      cases hstep with
      | region _ kind t => exact single ms s _ hms (.region [] kind t) hind
      | plain _ hq ho hc => exact single ms s _ hms (.plain [] hq ho hc) hind
      | opener u ho => exact opener ms u _ hms ho hind
      | @closer _ o d hd =>
        obtain ⟨qs, zs, rfl, hqs, hzs⟩ := nest_last_open hms
        rw [List.length_append, List.length_cons] at hlen
        rw [List.append_assoc, List.cons_append]
        exact enclosed qs s zs o d hqs hzs hd (ih qs.length (by omega) hqs rfl)

/-! ## The closing bracket -/

/-- The parenthesis that closes an opening one. -/
theorem eq_of_openerOf? {d : Char} (h : openerOf? d = some '(') : d = ')' := by
  unfold openerOf? at h
  split at h <;> simp_all

/-- The pieces up to the bracket that closes the bracket `b` on the outside, where `s` is open within it. -/
def ClosedBy (s : List Char) (b : Char) (text : Text) (n : Nat) : Prop :=
  ∃ ps d qs, pieces text = ps ++ .code d :: qs ∧ (textOf ps).length = n ∧ nest s ps = some [] ∧ openerOf? d = some b

/-- The first piece is the closing bracket, or it stands within the brackets. -/
theorem closedBy_cons_iff {s : List Char} {b : Char} {p : Piece} {text rest : Text} {n : Nat}
    (hp : pieces text = p :: pieces rest) :
    ClosedBy s b text n ↔ (s = [] ∧ n = 0 ∧ ∃ d, p = .code d ∧ openerOf? d = some b) ∨
      ∃ s' m, NestStep s p s' ∧ ClosedBy s' b rest m ∧ m + p.text.length = n := by
  rw [ClosedBy, hp]
  constructor
  · rintro ⟨ps, d, qs, h, rfl, hs, hd⟩
    cases ps with
    | nil =>
      rw [List.nil_append, List.cons.injEq] at h
      exact .inl ⟨by simpa using hs, rfl, d, h.1, hd⟩
    | cons m ps =>
      rw [List.cons_append, List.cons.injEq] at h
      obtain ⟨rfl, h⟩ := h
      obtain ⟨s', hstep, hs'⟩ := nest_cons_iff.mp hs
      exact .inr ⟨s', _, hstep, ⟨ps, d, qs, h, rfl, hs', hd⟩, by rw [textOf_cons, List.length_append, Nat.add_comm]⟩
  · rintro (⟨rfl, rfl, d, rfl, hd⟩ | ⟨s', m, hstep, ⟨ps, d, qs, h, rfl, hs', hd⟩, rfl⟩)
    · exact ⟨[], d, pieces rest, rfl, rfl, rfl, hd⟩
    · refine ⟨p :: ps, d, qs, by rw [h, List.cons_append], ?_, nest_cons_iff.mpr ⟨s', hstep, hs'⟩, hd⟩
      rw [textOf_cons, List.length_append, Nat.add_comm]

theorem closingIn_region {c : Char} {rest : Text} {kind : RegionKind} {n : Nat}
    (h : regionTail? c rest = some (kind, n)) (stack : List Char) :
    closingIn stack (c :: rest) = (closingIn stack (rest.drop n)).map (· + (n + 1)) := by
  rw [closingIn.eq_def]
  simp only [h]

theorem closingIn_code {c : Char} {rest : Text} (h : regionTail? c rest = none) (stack : List Char) :
    closingIn stack (c :: rest) =
      if isQuote c then none
      else if isOpener c then (closingIn (c :: stack) rest).map (· + 1)
      else
        match openerOf? c, stack with
        | none, _ => (closingIn stack rest).map (· + 1)
        | some _, [] => none
        | some o, top :: outer =>
          if top ≠ o then none
          else if outer.isEmpty then some 0
          else (closingIn outer rest).map (· + 1) := by
  have hstep := closingIn.eq_def stack (c :: rest)
  simp only [h] at hstep
  exact hstep

/-- A character of code, for the search: the one that leaves no bracket open is found. -/
theorem closingIn_code_iff {s : List Char} {c : Char} {rest : Text} {n : Nat} (hr : regionTail? c rest = none)
    (hs : s ≠ []) :
    closingIn s (c :: rest) = some n ↔ ∃ t, NestStep s (.code c) t ∧
      (t = [] ∧ n = 0 ∨ t ≠ [] ∧ ∃ m, closingIn t rest = some m ∧ m + 1 = n) := by
  rw [closingIn_code hr]
  constructor
  · intro h
    by_cases hq : isQuote c = true
    · simp [hq] at h
    · by_cases ho : isOpener c = true
      · simp only [hq, ho, Bool.false_eq_true, if_false, if_true, Option.map_eq_some_iff] at h
        exact ⟨c :: s, .opener s ho, .inr ⟨List.cons_ne_nil _ _, h⟩⟩
      · cases hc : openerOf? c with
        | none =>
          simp only [hq, ho, hc, Bool.false_eq_true, if_false, Option.map_eq_some_iff] at h
          exact ⟨s, .plain s (by simpa using hq) (by simpa using ho) (by simp [isCloser, hc]), .inr ⟨hs, h⟩⟩
        | some o =>
          obtain ⟨top, outer, rfl⟩ := List.exists_cons_of_ne_nil hs
          by_cases he : top = o
          · subst he
            cases outer with
            | nil =>
              simp only [hq, ho, hc, Bool.false_eq_true, if_false, ne_eq, not_true_eq_false, List.isEmpty_nil,
                if_true, Option.some.injEq] at h
              exact ⟨[], .closer [] hc, .inl ⟨rfl, h.symm⟩⟩
            | cons next outer =>
              simp only [hq, ho, hc, Bool.false_eq_true, if_false, ne_eq, not_true_eq_false, List.isEmpty_cons,
                Option.map_eq_some_iff] at h
              exact ⟨next :: outer, .closer _ hc, .inr ⟨List.cons_ne_nil _ _, h⟩⟩
          · simp [hq, ho, hc, he] at h
  · rintro ⟨t, hstep, h⟩
    cases hstep with
    | opener _ ho =>
      rw [if_neg (by simp [isQuote_of_isOpener ho]), if_pos ho, Option.map_eq_some_iff]
      simpa using h
    | closer _ hd =>
      have hcloser := isCloser_of_openerOf? hd
      rw [if_neg (by simp [isQuote_of_isCloser hcloser]), if_neg (by simp [isOpener_of_isCloser hcloser]), hd]
      rcases h with ⟨rfl, rfl⟩ | ⟨ht, h⟩
      · simp
      · simpa [ht] using h
    | plain _ hq ho hc =>
      have hnone : openerOf? c = none := by simpa [isCloser] using hc
      rw [if_neg (by simp [hq]), if_neg (by simp [ho]), hnone, Option.map_eq_some_iff]
      simpa [hs] using h

/-- **The closing bracket.** The search finds the bracket behind balanced pieces. -/
theorem closingIn_iff {s : List Char} {b : Char} {text : Text} {n : Nat} :
    closingIn (s ++ [b]) text = some n ↔ ClosedBy s b text n := by
  fun_induction pieces text generalizing s n with
  | case1 => simp [closingIn, ClosedBy]
  | case2 c rest kind k hr ih =>
    have hlen : (Piece.region kind (c :: rest.take k)).text.length = k + 1 := by
      simp [Piece.text, Nat.min_eq_left (lt_of_regionTail? hr)]
    rw [closingIn_region hr, Option.map_eq_some_iff, closedBy_cons_iff (pieces_region hr), hlen]
    constructor
    · rintro ⟨m, hm, rfl⟩
      exact .inr ⟨s, m, .region s kind _, ih.mp hm, rfl⟩
    · rintro (⟨-, -, d, hd, -⟩ | ⟨s', m, hstep, hm, rfl⟩)
      · cases hd
      · cases hstep
        exact ⟨m, ih.mpr hm, rfl⟩
  | case3 c rest hr ih =>
    rw [closingIn_code_iff hr (by simp), closedBy_cons_iff (pieces_code hr)]
    constructor
    · rintro ⟨t, hstep, h⟩
      rcases hstep.of_frame with ⟨rfl, d, hc, hd, rfl⟩ | ⟨s', rfl, hstep'⟩
      · exact .inl ⟨rfl, by simpa using h, d, hc, hd⟩
      · obtain ⟨-, m, hm, rfl⟩ := h.resolve_left (by simp)
        exact .inr ⟨s', m, hstep', ih.mp hm, rfl⟩
    · rintro (⟨rfl, rfl, d, hc, hd⟩ | ⟨s', m, hstep, hm, rfl⟩)
      · cases hc
        exact ⟨[], .closer [] hd, .inl ⟨rfl, rfl⟩⟩
      · exact ⟨s' ++ [b], hstep.frame [b], .inr ⟨by simp, m, ih.mpr hm, rfl⟩⟩

/-- The search from an opening bracket goes on behind it. -/
theorem findClosing_iff_closedBy {o : Char} {text rest : Text} {i close : Nat} (h : text.drop i = o :: rest)
    (ho : isOpener o = true) : findClosing text i = some close ↔ ∃ n, ClosedBy [] o rest n ∧ i + 1 + n = close := by
  rw [findClosing, h, closingOffset?, if_neg (by simp [isQuote_of_isOpener ho]), if_pos ho, Option.map_map,
    Option.map_eq_some_iff]
  refine exists_congr fun n => and_congr (closingIn_iff (s := [])) ?_
  rw [Function.comp_apply, Nat.add_comm n 1, Nat.add_assoc]

theorem drop_of_getElem? {c : Char} {text : Text} {i : Nat} (h : text[i]? = some c) :
    text.drop i = c :: text.drop (i + 1) := by
  obtain ⟨hlt, hget⟩ := List.getElem?_eq_some_iff.mp h
  rw [List.drop_eq_getElem_cons hlt, hget]

/-- What stands between an opening bracket and the one that closes it is balanced. -/
theorem findClosing_split {o : Char} {text : Text} {i close : Nat} (hi : text[i]? = some o) (ho : isOpener o = true)
    (h : findClosing text i = some close) :
    ∃ ps d, pieces (text.drop (i + 1)) = ps ++ .code d :: pieces (text.drop (close + 1)) ∧
      i + 1 + (textOf ps).length = close ∧ text[close]? = some d ∧ nest [] ps = some [] ∧ openerOf? d = some o := by
  obtain ⟨n, ⟨ps, d, qs, hp, rfl, hbal, hd⟩, rfl⟩ := (findClosing_iff_closedBy (drop_of_getElem? hi) ho).mp h
  have hclose : text.drop (i + 1 + (textOf ps).length) = d :: textOf qs := by
    rw [← List.drop_drop, drop_of_pieces hp rfl]
    rfl
  have hrest : text.drop (i + 1 + (textOf ps).length + 1) = textOf qs := by
    rw [← List.drop_drop, hclose]
    rfl
  have hcut : pieces (text.drop (i + 1)) = (ps ++ [.code d]) ++ qs := by rw [hp]; simp
  refine ⟨ps, d, ?_, rfl, ?_, hbal, hd⟩
  · rw [hrest, pieces_textOf hcut, hp]
  · rw [← List.head?_drop, hclose]
    rfl

/-- A bracket with its partner behind balanced pieces. -/
theorem findClosing_of_pieces {o c : Char} {text : Text} {front ps qs : List Piece} {i : Nat}
    (h : pieces text = front ++ .code o :: (ps ++ .code c :: qs)) (hi : (textOf front).length = i)
    (hn : nest [] ps = some []) (hc : openerOf? c = some o) :
    findClosing text i = some (i + 1 + (textOf ps).length) := by
  have ho := isOpener_of_openerOf? hc
  have hdrop : text.drop i = o :: textOf (ps ++ .code c :: qs) := drop_of_pieces h hi
  have hcut : pieces text = (front ++ [.code o]) ++ (ps ++ .code c :: qs) := by rw [h]; simp
  rw [findClosing_iff_closedBy hdrop ho]
  exact ⟨_, ⟨ps, c, qs, pieces_textOf hcut, rfl, hn, hc⟩, rfl⟩

/-- A bracket is closed by its partner at the end of the text exactly if what stands between them is balanced. -/
theorem findClosing_last_iff {o c : Char} {text : Text} {front ps : List Piece} {i : Nat}
    (h : pieces text = front ++ .code o :: (ps ++ [.code c])) (hi : (textOf front).length = i)
    (hc : openerOf? c = some o) : findClosing text i = some (text.length - 1) ↔ nest [] ps = some [] := by
  have ho := isOpener_of_openerOf? hc
  have hdrop : text.drop i = o :: textOf (ps ++ [.code c]) := drop_of_pieces h hi
  have hcut : pieces text = (front ++ [.code o]) ++ (ps ++ [.code c]) := by rw [h]; simp
  have hlen : i + 1 + (textOf ps).length = text.length - 1 := by
    rw [← textOf_pieces text, h, ← hi]
    simp only [textOf_append, List.length_append, textOf_cons, Piece.text, textOf_nil, List.length_nil,
      List.length_singleton]
    omega
  constructor
  · intro hfind
    obtain ⟨n, ⟨qs, d, rs, hp, rfl, hn, -⟩, hclose⟩ := (findClosing_iff_closedBy hdrop ho).mp hfind
    have hl : (textOf qs).length = (textOf ps).length := by omega
    -- two cuts at one place
    rw [pieces_textOf hcut] at hp
    rcases append_eq_append_cons hp with ⟨zs, rfl, hzs⟩ | ⟨zs, rfl, -⟩
    · cases zs with
      | nil => rwa [List.append_nil] at hn
      | cons z zs => simp at hzs
    · simp only [textOf_append, textOf_cons, List.length_append, Piece.text, List.length_singleton] at hl
      omega
  · intro hn
    rw [findClosing_of_pieces h hi hn hc, hlen]

/-! ## Splitting -/

/-- A separator outside all brackets ends the first part. -/
theorem NestStep.splitPieces_cut {sep : Char} (h : NestStep [] (.code sep) []) (ps : List Piece) :
    splitPieces sep 0 (.code sep :: ps) = ([], (splitPieces sep 0 ps).1 :: (splitPieces sep 0 ps).2) := by
  cases h with
  | plain _ _ ho hc => simp [splitPieces, ho, hc]

/-- Any other piece goes to the first part. -/
theorem NestStep.splitPieces_cons {s s' : List Char} {p : Piece} {sep : Char} (h : NestStep s p s')
    (hsep : ¬ (p = .code sep ∧ s = [] ∧ s' = [])) (ps : List Piece) :
    splitPieces sep s.length (p :: ps) =
      (p.text ++ (splitPieces sep s'.length ps).1, (splitPieces sep s'.length ps).2) := by
  cases h with
  | region => rfl
  | opener _ ho => simp [splitPieces, ho, Piece.text]
  | closer _ hd =>
    have hcloser := isCloser_of_openerOf? hd
    simp [splitPieces, isOpener_of_isCloser hcloser, hcloser, Piece.text]
  | @plain _ c _ ho hc =>
    have hno : ¬ (c = sep ∧ s.length = 0) := by
      rintro ⟨rfl, h0⟩
      obtain rfl := List.length_eq_zero_iff.mp h0
      exact hsep ⟨rfl, rfl, rfl⟩
    rw [splitPieces, if_neg (by simp [ho]), if_neg (by simp [hc]), if_neg hno]
    rfl

/-- **The parts of balanced pieces are balanced.** -/
theorem splitPieces_of_nest {s : List Char} {ps : List Piece} (h : nest s ps = some []) (sep : Char) :
    ∃ (q : List Piece) (qs : List (List Piece)), ps = q ++ qs.flatMap (.code sep :: ·) ∧
      splitPieces sep s.length ps = (textOf q, qs.map textOf) ∧
      nest s q = some [] ∧ ∀ x ∈ qs, nest [] x = some [] := by
  induction ps generalizing s with
  | nil => exact ⟨[], [], rfl, rfl, h, by simp⟩
  | cons p ps ih =>
    obtain ⟨s', hstep, hrest⟩ := nest_cons_iff.mp h
    obtain ⟨q, qs, rfl, hsplit, hq, hqs⟩ := ih hrest
    by_cases hsep : p = .code sep ∧ s = [] ∧ s' = []
    · obtain ⟨rfl, rfl, rfl⟩ := hsep
      exact ⟨[], q :: qs, rfl, (hstep.splitPieces_cut _).trans (by rw [← List.length_nil, hsplit]; rfl), rfl,
        List.forall_mem_cons.mpr ⟨hq, hqs⟩⟩
    · refine ⟨p :: q, qs, rfl, ?_, (hstep.nest_cons q).trans hq, hqs⟩
      rw [hstep.splitPieces_cons hsep, hsplit, textOf_cons]

theorem splitPieces_append (sep : Char) (hsep : sep ≠ '-') (depth : Nat) (ms : List Piece) :
    splitPieces sep depth (ms ++ [.region .comment ['-', '-']]) =
      splitPieces sep depth (ms ++ [.code '-', .code '-']) := by
  have hdash : ¬ '-' = sep := fun e => hsep e.symm
  induction ms generalizing depth with
  | nil =>
    have h1 : isOpener '-' = false := by decide
    have h2 : isCloser '-' = false := by decide
    simp [splitPieces, h1, h2, hdash]
  | cons m ms ih =>
    cases m with
    | region kind t => simp only [List.cons_append, splitPieces, ih]
    | code c => simp only [List.cons_append, splitPieces, ih]

/-- A text that is read as `ps` in front of a parenthesis is split as they are. -/
theorem splitPieces_of_reads {a : Text} {ps : List Piece} (h : Reads a [')'] ps) {sep : Char} (hsep : sep ≠ '-') :
    splitPieces sep 0 (pieces a) = splitPieces sep 0 ps := by
  rcases h.alone with hp | ⟨ms, rfl, hp⟩
  · rw [hp]
  · rw [hp, splitPieces_append sep hsep]

/-- **The parts of a text** that is read as balanced pieces in front of a parenthesis are read as balanced pieces. -/
theorem splitTopLevel_of_reads {a : Text} {ps : List Piece} (h : Reads a [')'] ps) (hn : nest [] ps = some [])
    {sep : Char} (hsep : sep ≠ '-') :
    ∃ (q : List Piece) (qs : List (List Piece)), ps = q ++ qs.flatMap (.code sep :: ·) ∧
      splitTopLevel a sep = textOf q :: qs.map textOf ∧ nest [] q = some [] ∧ ∀ x ∈ qs, nest [] x = some [] := by
  obtain ⟨q, qs, he, hs, hq, hqs⟩ := splitPieces_of_nest hn sep
  refine ⟨q, qs, he, ?_, hq, hqs⟩
  rw [List.length_nil] at hs
  rw [splitTopLevel, splitPieces_of_reads h hsep, hs]

/-! ## Trimming -/

/-- Trimming leaves the brackets as they are. -/
theorem nest_trim {a r : Text} {qs : List Piece} (h : Reads a r qs) (hr : r ≠ [])
    (hopen : leavesCommentOpen (Text.trim a) = false) (stack : List Char) :
    ∃ ps, Reads (Text.trim a) [')'] ps ∧ nest stack ps = nest stack qs := by
  obtain ⟨s₁, s₂, ps, -, hs₁, hs₂, hps, hcases⟩ := h.trim hr hopen
  refine ⟨ps, hps, ?_⟩
  have hend : ∀ {t : Text} (st : List Char), (∀ c ∈ t, isSpace c = true) → nest st (t.map .code) = some st := by
    intro t st ht
    have := nest_spaces ht st []
    rwa [List.append_nil] at this
  rcases hcases with rfl | ⟨ms, t₁, t₂, rfl, rfl, rfl⟩
  · rw [nest_spaces hs₁, nest_append]
    simp only [hend _ hs₂]
    cases nest stack ps <;> rfl
  · have hdash : ∀ st, nest st [.code '-', .code '-'] = some st := fun st => by
      have h1 : isQuote '-' = false := by decide
      have h2 : isOpener '-' = false := by decide
      have h3 : isCloser '-' = false := by decide
      rw [nest_code h1 h2 h3, nest_code h1 h2 h3, nest_nil]
    rw [nest_spaces hs₁, nest_append, nest_append]
    simp only [nest_region, hend _ fun c hc => hs₂ c (List.mem_append_right _ hc), hdash]

end SqlDialect
