import SqlDialect.Proofs.Calls

/-!
# Converting from the outside in and from the inside out

After each call the conversion goes on at the start of what it has just written, where the arguments stand with their
own calls. Arguments are balanced, so nothing in them reaches beyond the parenthesis behind them, and they are read
there as they are read alone.

* `TimeDifference.convertFrom_append`: a text that is followed by a parenthesis is converted as from the inside out.
* `TimeDifference.convert_eq_bottomUp`: the same for a whole text.
-/

namespace SqlDialect.TimeDifference

/-! ## Calls within a part of a text -/

theorem startsCall_before {before : Option Char} (h : before.any isWord = false) (t : Text) :
    startsCall before t = startsCall none t := by
  rw [startsCall, startsCall, startsKeyword_before h]

/-- A call does not reach over a place that no word goes across and no opening parenthesis follows. -/
theorem startsCall_append {b : Option Char} {u r : Text} (hu : u ≠ [])
    (hw : ∀ c, r.head? = some c → isWord c = false) (hp : (r.dropWhile isBlank).head? ≠ some '(') :
    startsCall b (u ++ r) = startsCall b u := by
  have hkey : startsKeyword functionName b (u ++ r) = startsKeyword functionName b u :=
    startsKeyword_append isWord_functionName hu (Or.inr hw)
  rw [startsCall, startsCall, hkey]
  by_cases hs : startsKeyword functionName b u = true
  · have hlen : functionName.length ≤ u.length := by
      simp only [startsKeyword, Bool.and_eq_true] at hs
      exact starts_length hs.1.1
    rw [List.drop_append_of_le_length hlen, List.dropWhile_append]
    split
    · next he =>
      rw [List.isEmpty_iff.mp he]
      congr 1
      rw [beq_eq_false_iff_ne.mpr hp]
      rfl
    · next he =>
      cases hd : (u.drop functionName.length).dropWhile isBlank with
      | nil => rw [hd] at he; exact absurd rfl he
      | cons c x => rfl
  · rw [Bool.eq_false_iff.mpr hs, Bool.false_and, Bool.false_and]

/-- A call does not reach over the end of a text or a closing parenthesis. -/
theorem startsCall_append_parenthesis {b : Option Char} {u r : Text} (hu : u ≠ [])
    (hr : r ≠ [] → r.head? = some ')') : startsCall b (u ++ r) = startsCall b u := by
  cases r with
  | nil => rw [List.append_nil]
  | cons c y =>
    have hc := Option.some.inj (hr (by simp))
    subst hc
    refine startsCall_append hu (fun c hc => ?_) ?_
    · rw [← Option.some.inj hc]
      decide
    · rw [List.dropWhile_cons_of_neg (by decide)]
      simp

/-- A call starts with its name, blanks and a parenthesis. -/
theorem startsCall_split {b : Option Char} {t : Text} (h : startsCall b t = true) :
    ∃ v bl inner, t = v ++ (bl ++ '(' :: inner) ∧ Text.lower v = Text.lower functionName ∧
      ∀ c ∈ bl, isBlank c = true := by
  simp only [startsCall, Bool.and_eq_true, beq_iff_eq] at h
  obtain ⟨v, u, rfl, hv⟩ := starts_iff.mp (starts_of_startsKeyword h.1)
  obtain ⟨inner, hinner⟩ := List.head?_eq_some_iff.mp h.2
  rw [← length_eq_of_lower_eq hv, List.drop_left] at hinner
  refine ⟨v, u.takeWhile isBlank, inner, ?_, hv, List.all_eq_true.mp List.all_takeWhile⟩
  rw [← hinner, List.takeWhile_append_dropWhile]

theorem behindParenthesis_call {v bl : Text} (hv : Text.lower v = Text.lower functionName)
    (hbl : ∀ c ∈ bl, isBlank c = true) (t : Text) : behindParenthesis (v ++ (bl ++ '(' :: t)) = t := by
  rw [behindParenthesis, ← length_eq_of_lower_eq hv, List.drop_left, List.dropWhile_append_of_pos hbl,
    List.dropWhile_cons_of_neg (by decide)]
  rfl

/-- The name, the blanks and the parenthesis of a call are pieces of their own. -/
theorem reads_call {v bl inner t : Text} {ps : List Piece} (hv : Text.lower v = Text.lower functionName)
    (hbl : ∀ c ∈ bl, isBlank c = true) (h : Reads (v ++ (bl ++ '(' :: inner)) t ps) :
    ∃ qs, ps = v.map .code ++ (bl.map .code ++ .code '(' :: qs) ∧ Reads inner t qs := by
  obtain ⟨q₁, rfl, hq₁⟩ := (reads_word (isWord_of_lower_eq hv isWord_functionName) _).split h
  obtain ⟨q₂, rfl, hq₂⟩ := (reads_spaces (fun c hc => isSpace_of_isBlank (hbl c hc)) _).split hq₁
  have hparen : Reads ['('] (inner ++ t) [.code '('] := reads_of_isPlain (by decide) _
  obtain ⟨qs, rfl, hq⟩ := hparen.split hq₂
  exact ⟨qs, rfl, hq⟩

theorem startsCall_ne_dash (b : Option Char) (t : Text) : startsCall b ('-' :: t) = false := by
  have h : Text.starts functionName ('-' :: t) = false := by
    obtain ⟨c, w, hw⟩ := List.exists_cons_of_ne_nil functionName_ne_nil
    have hc : isWord c = true := isWord_functionName c (by rw [hw]; exact List.mem_cons_self)
    rw [hw, Text.starts, Bool.and_eq_false_iff, beq_eq_false_iff_ne]
    refine Or.inl fun e => ?_
    rw [eq_of_toLower_eq e (by decide)] at hc
    cases hc
  simp [startsCall, startsKeyword, h]

/-- The text `a` in front of `r` is read as `ps`. If anything stands behind it, that is a parenthesis, and the brackets
that are opened in `a` are closed in it. -/
structure Placed (a r : Text) (ps : List Piece) : Prop where
  reads : Reads a r ps
  settled : r ≠ [] → Reads a [')'] ps ∧ (∃ s, nest s ps = some []) ∧ r.head? = some ')'

/-- The text `a` in front of `r`, behind an opening parenthesis. -/
structure Opened (a r : Text) (ps : List Piece) : Prop where
  reads : Reads a r ps
  settled : r ≠ [] → Reads a [')'] ps ∧ (∃ s, nest ('(' :: s) ps = some []) ∧ r.head? = some ')'

namespace Placed

variable {a r : Text} {ps : List Piece}

/-- A whole text. -/
theorem whole (a : Text) : Placed a [] (pieces a) :=
  ⟨by rw [Reads, List.append_nil, pieces_nil, List.append_nil], fun h => absurd rfl h⟩

theorem firstIn_alone (h : Placed a r ps) : firstIn startsCall none (pieces a) = firstIn startsCall none ps := by
  by_cases hr : r = []
  · subst hr
    have := h.reads
    rw [Reads, List.append_nil, pieces_nil, List.append_nil] at this
    rw [this]
  · exact (h.settled hr).1.firstIn_alone startsCall_ne_dash none

/-- The first call behind `done` is the first call of `a`, or else of `r`. -/
theorem firstIn_append (h : Placed a r ps) (before : Option Char) :
    firstIn startsCall before (pieces (a ++ r)) =
      (firstIn startsCall before ps).or
        ((firstIn startsCall (a.getLast?.or before) (pieces r)).map (· + a.length)) := by
  have hj : ∀ b x u, u ≠ [] → textOf ps = x ++ u → startsCall b (u ++ textOf (pieces r)) = startsCall b u :=
    fun b x u hu _ => by rw [textOf_pieces]; exact startsCall_append_parenthesis hu fun hr => (h.settled hr).2.2
  have happ : firstIn startsCall before (ps ++ pieces r) = _ := SqlDialect.firstIn_append hj
  rw [h.reads, happ, h.reads.textOf_eq]

/-- The text behind the opening parenthesis of the first call. -/
theorem call {n : Nat} (h : Placed a r ps) (hn : firstIn startsCall none ps = some n) :
    ∃ (ms : List Piece) (v bl inner : Text) (qs : List Piece),
      opened? a = some (textOf ms, inner) ∧ (a ++ r).take n = textOf ms ∧
      behindParenthesis ((a ++ r).drop n) = inner ++ r ∧ Opened inner r qs ∧
      ps = ms ++ (v.map .code ++ (bl.map .code ++ .code '(' :: qs)) ∧
      (textOf ms).length = n ∧ (textOf ms).getLast?.any isWord = false ∧ Text.lower v = Text.lower functionName ∧
      ∀ c ∈ bl, isBlank c = true := by
  obtain ⟨ms, c, ns, rfl, rfl, hs⟩ := firstIn_split hn
  have htext : a = textOf ms ++ textOf (.code c :: ns) := by rw [← textOf_append, h.reads.textOf_eq]
  have hlast : (textOf ms).getLast?.any isWord = false := by
    have := before_of_startsKeyword functionName_ne_nil isWord_functionName (startsKeyword_of_startsCall hs)
    rwa [Option.or_none] at this
  obtain ⟨v, bl, inner, he, hv, hbl⟩ := startsCall_split (t := textOf (.code c :: ns)) hs
  have hread := h.reads.drop
  rw [he] at hread
  obtain ⟨qs, hqs, hq⟩ := reads_call hv hbl hread
  refine ⟨ms, v, bl, inner, qs, ?_, ?_, ?_, ⟨hq, fun hr => ?_⟩, by rw [hqs], rfl, hlast, hv, hbl⟩
  · rw [opened?, h.firstIn_alone, hn, Option.map_some, htext, List.drop_left, he, behindParenthesis_call hv hbl,
      List.take_left]
  · rw [htext, List.append_assoc, List.take_left]
  · rw [htext, List.append_assoc, List.drop_left, he]
    simp only [List.append_assoc, List.cons_append]
    exact behindParenthesis_call hv hbl (inner ++ r)
  · obtain ⟨hclosed, ⟨s, hs⟩, hhead⟩ := h.settled hr
    have hread' := hclosed.drop
    rw [he] at hread'
    obtain ⟨qs', hqs', hq'⟩ := reads_call hv hbl hread'
    have heq : qs' = qs := by
      rw [hqs] at hqs'
      have := List.append_cancel_left (List.append_cancel_left hqs')
      rw [List.cons.injEq] at this
      exact this.2.symm
    rw [heq] at hq'
    refine ⟨hq', ?_, hhead⟩
    rw [hqs, nest_append] at hs
    obtain ⟨s₁, -, hs₁⟩ := Option.bind_eq_some_iff.mp hs
    rw [nest_word (isWord_of_lower_eq hv isWord_functionName), nest_spaces fun c hc => isSpace_of_isBlank (hbl c hc),
      nest_open (by decide)] at hs₁
    exact ⟨s₁, hs₁⟩

end Placed

/-- What is read as balanced pieces up to a parenthesis is read so in front of any parenthesis. -/
theorem reads_parenthesis {a x y : Text} {ps : List Piece} {s t : List Char} (h : Reads a (')' :: x) ps)
    (hn : nest s ps = some t) : Reads a (')' :: y) ps :=
  h.delimited (Or.inr rfl) fun q hq hm => by
    rw [isQuote_of_nest hn hm] at hq
    cases hq

/-- So it is read in front of any text that starts with a parenthesis. -/
theorem reads_closing {a x t : Text} {ps : List Piece} {s s' : List Char} (h : Reads a (')' :: x) ps)
    (hn : nest s ps = some s') (ht : t.head? = some ')') : Reads a t ps := by
  obtain ⟨y, rfl⟩ := List.head?_eq_some_iff.mp ht
  exact reads_parenthesis h hn

theorem head?_append_some {t : Text} {c : Char} (h : t.head? = some c) (x : Text) : (t ++ x).head? = some c := by
  rw [List.head?_append, h, Option.some_or]

theorem head?_opening : opening.head? = some '(' := by decide +kernel

theorem head?_middle : middle.head? = some ')' := by decide +kernel

theorem head?_closing : closing.head? = some ')' := by decide +kernel

namespace Opened

variable {a r : Text} {ps : List Piece}

/-- The closing parenthesis is found whatever follows. -/
theorem closingIn_append (h : Opened a r ps) : closingIn ['('] (a ++ r) = closingIn ['('] a := by
  by_cases hr : r = []
  · rw [hr, List.append_nil]
  · obtain ⟨hclosed, ⟨s, hs⟩, -⟩ := h.settled hr
    obtain ⟨qs, d, rs, rfl, hq, hd, -⟩ := nest_close (s := []) hs (Nat.zero_le _)
    have hdash : d ≠ '-' := by
      rw [eq_of_openerOf? hd]
      decide
    obtain ⟨rs', ha⟩ := hclosed.alone_of_code hdash
    have h1 : closingIn ([] ++ ['(']) (a ++ r) = some (textOf qs).length :=
      closingIn_iff.mpr ⟨qs, d, rs ++ pieces r, by rw [h.reads]; simp, rfl, hq, hd⟩
    have h2 : closingIn ([] ++ ['(']) a = some (textOf qs).length := closingIn_iff.mpr ⟨qs, d, rs', ha, rfl, hq, hd⟩
    rw [List.nil_append] at h1 h2
    rw [h1, h2]

/-- The text between the parentheses of a call is balanced, and what stands behind them is placed as before. -/
theorem arguments {n : Nat} (h : Opened a r ps) (hn : closingIn ['('] a = some n) :
    ∃ qs rs, ps = qs ++ .code ')' :: rs ∧ Reads (a.take n) [')'] qs ∧ nest [] qs = some [] ∧
      Placed (a.drop (n + 1)) r rs := by
  have hlt := closingIn_lt hn
  rw [← h.closingIn_append] at hn
  obtain ⟨qs, d, rest, hp, rfl, hq, hd⟩ := closingIn_iff (s := []).mp hn
  have hparen := eq_of_openerOf? hd
  subst hparen
  have htext : a ++ r = textOf qs ++ (')' :: textOf rest) := by
    rw [← textOf_pieces (a ++ r), hp, textOf_append]
    rfl
  have htake : a.take (textOf qs).length = textOf qs := by
    rw [← List.take_append_of_le_length (Nat.le_of_lt hlt), htext, List.take_left]
  obtain ⟨x, hx⟩ : ∃ x, a.drop (textOf qs).length = ')' :: x := by
    have hget : a.drop (textOf qs).length ++ r = ')' :: textOf rest := by
      rw [← List.drop_append_of_le_length (Nat.le_of_lt hlt), htext, List.drop_left]
    cases hd : a.drop (textOf qs).length with
    | nil => exact absurd (List.drop_eq_nil_iff.mp hd) (by omega)
    | cons c x =>
      rw [hd, List.cons_append, List.cons.injEq] at hget
      exact ⟨x, by rw [hget.1]⟩
  have hx' : a.drop ((textOf qs).length + 1) = x := by
    rw [← List.drop_drop, hx]
    rfl
  have ha : a = textOf qs ++ (')' :: x) := by rw [← hx]; conv => lhs; rw [← List.take_append_drop _ a, htake]
  have hread : ∀ y, Reads (textOf qs) (')' :: y) qs := fun y => reads_parenthesis (Reads.of_pieces hp) hq
  rw [htake, hx']
  have hreads := h.reads
  rw [ha] at hreads
  obtain ⟨q₁, rfl, hq₁⟩ := (hread (x ++ r)).split hreads
  have hone : Reads [')'] (x ++ r) [.code ')'] := reads_of_isPlain (by decide) _
  obtain ⟨rs, rfl, hrs⟩ := hone.split hq₁
  refine ⟨qs, rs, rfl, hread [], hq, hrs, fun hr => ?_⟩
  obtain ⟨hclosed, ⟨s, hs⟩, hhead⟩ := h.settled hr
  refine ⟨?_, ⟨s, ?_⟩, hhead⟩
  · have hclosed' : Reads (textOf qs ++ ')' :: x) [')'] ((qs ++ [.code ')']) ++ rs) := by
      rw [← ha]
      simpa using hclosed
    have := hclosed'.drop
    rwa [hrs.textOf_eq] at this
  · rw [nest_append, show '(' :: s = [] ++ '(' :: s from rfl, nest_frame hq] at hs
    rw [← nest_closer hd]
    exact hs

end Opened

/-- The three arguments of a call among the pieces between its parentheses. -/
theorem reads_arguments {a unit first last : Text} {ps : List Piece} (h : Reads a [')'] ps) (hn : nest [] ps = some [])
    (hs : splitTopLevel a ',' = [unit, first, last]) :
    ∃ q f l, ps = q ++ .code ',' :: (f ++ .code ',' :: l) ∧ Reads first (',' :: last ++ [')']) f ∧ Reads last [')'] l ∧
      nest [] f = some [] ∧ nest [] l = some [] ∧ nest [] q = some [] ∧ textOf q = unit := by
  obtain ⟨q, qs, rfl, hsplit, hq, hqs⟩ := splitTopLevel_of_reads h hn (by decide : ',' ≠ '-')
  rw [hs, List.cons.injEq] at hsplit
  obtain ⟨f, ls, rfl, rfl, hls⟩ := List.map_eq_cons_iff.mp hsplit.2.symm
  obtain ⟨l, ms, rfl, rfl, hms⟩ := List.map_eq_cons_iff.mp hls
  rw [List.map_eq_nil_iff] at hms
  subst hms
  have hp : q ++ [f, l].flatMap (.code ',' :: ·) = (q ++ [.code ',']) ++ (f ++ .code ',' :: l) := by simp
  rw [hp] at h
  have hl : Reads a [')'] ((q ++ [.code ','] ++ f ++ [.code ',']) ++ l) := by simpa using h
  exact ⟨q, f, l, by simp, h.drop.take, hl.drop, hqs f (by simp), hqs l (by simp), hq, hsplit.1.symm⟩

/-! ## Text without calls -/

/-- Where no call starts, the conversion does nothing. -/
theorem convertFrom_skip {done a r : Text} {ps : List Piece} (h : Reads a r ps)
    (hj : ∀ b x u, u ≠ [] → a = x ++ u → startsCall b (u ++ r) = startsCall b u)
    (hn : firstIn startsCall done.getLast? ps = none) : convertFrom done (a ++ r) = convertFrom (done ++ a) r := by
  have hfirst : firstIn startsCall done.getLast? (pieces (a ++ r)) =
      (firstIn startsCall (done ++ a).getLast? (pieces r)).map (· + a.length) := by
    have happ : firstIn startsCall done.getLast? (ps ++ pieces r) = _ := firstIn_append fun b x u hu hx => by
      rw [textOf_pieces]
      exact hj b x u hu (by rw [← h.textOf_eq, hx])
    rw [h, happ, hn, Option.none_or, h.textOf_eq, List.getLast?_append]
  cases hr : firstIn startsCall (done ++ a).getLast? (pieces r) with
  | none =>
    rw [hr] at hfirst
    rw [convertFrom_of_none hfirst, convertFrom_of_none hr, List.append_assoc]
  | some n =>
    rw [hr, Option.map_some] at hfirst
    rw [convertFrom_call hfirst, convertFrom_call hr]
    have htake : done ++ (a ++ r).take (n + a.length) = done ++ a ++ r.take n := by
      rw [List.append_assoc, Nat.add_comm, List.take_length_add_append]
    have hdrop : (a ++ r).drop (n + a.length) = r.drop n := by
      rw [Nat.add_comm, ← List.drop_drop, List.drop_left]
    rw [htake, hdrop]

/-- Is the character no first letter of the function's name? -/
def startsNoName (c : Char) : Bool := c.toLower ≠ 't'

theorem startsKeyword_of_startsNoName {c : Char} (h : startsNoName c = true) (b : Option Char) (t : Text) :
    startsKeyword functionName b (c :: t) = false := by
  have hname : functionName = 't' :: "imestampdiff".toList := by decide +kernel
  have hs : Text.starts functionName (c :: t) = false := by
    rw [hname, Text.starts, Bool.and_eq_false_iff, beq_eq_false_iff_ne]
    refine Or.inl fun e => ?_
    simp only [startsNoName, ne_eq, decide_eq_true_eq] at h
    exact h (e.symm.trans (by decide))
  simp [startsKeyword, hs]

theorem startsCall_of_startsNoName {c : Char} (h : startsNoName c = true) (b : Option Char) (t : Text) :
    startsCall b (c :: t) = false := by
  rw [startsCall, startsKeyword_of_startsNoName h, Bool.false_and]

/-- What cannot start at any character of a text does not stand in it. -/
theorem firstIn_map_code {p : Option Char → Text → Bool} {x : Text} (h : ∀ c ∈ x, ∀ b t, p b (c :: t) = false)
    (before : Option Char) : firstIn p before (x.map .code) = none := by
  induction x generalizing before with
  | nil => rfl
  | cons c x ih =>
    rw [List.map_cons, firstIn, if_neg (by simp [h c List.mem_cons_self]),
      ih fun d hd => h d (List.mem_cons_of_mem _ hd)]
    rfl

/-- What is written around the arguments holds no call. -/
theorem convertFrom_written {done a r : Text} (hp : isPlain a = true) (ha : a.all startsNoName = true) :
    convertFrom done (a ++ r) = convertFrom (done ++ a) r := by
  rw [List.all_eq_true] at ha
  have hnone := firstIn_map_code (fun c hc => startsCall_of_startsNoName (ha c hc)) done.getLast?
  refine convertFrom_skip (reads_of_isPlain hp r) (fun b x u hu hx => ?_) hnone
  obtain ⟨c, u, rfl⟩ := List.exists_cons_of_ne_nil hu
  have hc := startsCall_of_startsNoName (ha c (by simp [hx])) b
  rw [List.cons_append, hc, hc]

/-! ## The whole conversion -/

/-- No argument of the call leaves a comment open. -/
def Call.Closed (c : Call) : Prop := ∀ part ∈ c.parts, leavesCommentOpen part = false

/-- The conversion of `a` in front of `r`, where it succeeds and where it is refused. -/
def ConvertsTo (a r : Text) : Prop :=
  ∀ done : Text, done.getLast?.any isWord = false →
    ((∀ c ∈ calls a, c.WellFormed) → convertFrom done (a ++ r) = convertFrom (done ++ bottomUp a) r) ∧
      ((∃ c ∈ calls a, ¬ c.WellFormed) → ∃ e, convertFrom done (a ++ r) = .error e)

/-- What is written for a call is converted as its arguments are. -/
theorem convertFrom_render {unit first last r : Text} {done : Text}
    (hl : ∀ x, ConvertsTo last (middle ++ x)) (hf : ∀ x, ConvertsTo first (closing ++ x)) :
    ((∀ c ∈ calls first ++ calls last, c.WellFormed) →
        convertFrom done (render ⟨unit, first, last⟩ ++ r) =
          convertFrom (done ++ render ⟨unit, bottomUp first, bottomUp last⟩) r) ∧
      ((∃ c ∈ calls first ++ calls last, ¬ c.WellFormed) →
        ∃ e, convertFrom done (render ⟨unit, first, last⟩ ++ r) = .error e) := by
  have hopening : ∀ d : Text, (d ++ opening).getLast?.any isWord = false := fun d => by
    have : opening.getLast? = some '(' := by decide +kernel
    rw [List.getLast?_append, this]
    exact (by decide : isWord '(' = false)
  have hmiddle : ∀ d : Text, (d ++ middle).getLast?.any isWord = false := fun d => by
    have : middle.getLast? = some '(' := by decide +kernel
    rw [List.getLast?_append, this]
    exact (by decide : isWord '(' = false)
  have hsplit : render ⟨unit, first, last⟩ ++ r = opening ++ (last ++ (middle ++ (first ++ (closing ++ r)))) := by
    simp [render]
  rw [hsplit, convertFrom_written (by decide +kernel) (by decide +kernel)]
  obtain ⟨hlast, hlast'⟩ := hl (first ++ (closing ++ r)) (done ++ opening) (hopening done)
  by_cases hwl : ∀ c ∈ calls last, c.WellFormed
  · rw [hlast hwl, convertFrom_written (by decide +kernel) (by decide +kernel)]
    obtain ⟨hfirst, hfirst'⟩ := hf r (done ++ opening ++ bottomUp last ++ middle) (hmiddle _)
    constructor
    · intro hw
      rw [hfirst fun c hc => hw c (List.mem_append_left _ hc),
        convertFrom_written (by decide +kernel) (by decide +kernel)]
      simp [render]
    · rintro ⟨c, hc, hno⟩
      rcases List.mem_append.mp hc with hc | hc
      · exact hfirst' ⟨c, hc, hno⟩
      · exact absurd (hwl c hc) hno
  · constructor
    · intro hw
      exact absurd (fun c hc => hw c (List.mem_append_right _ hc)) hwl
    · intro _
      simp only [Classical.not_forall] at hwl
      obtain ⟨c, hc, hno⟩ := hwl
      exact hlast' ⟨c, hc, hno⟩

/-- An argument of a call, in front of what is written behind it. -/
theorem Placed.of_argument {a r x : Text} {qs : List Piece} (h : Reads a r qs) (hr : r ≠ []) (hn : nest [] qs = some [])
    (hopen : leavesCommentOpen (Text.trim a) = false) (hx : x.head? = some ')') :
    ∃ ps, Placed (Text.trim a) x ps := by
  obtain ⟨ps, hps, hnest⟩ := nest_trim h hr hopen []
  rw [hn] at hnest
  obtain ⟨y, rfl⟩ : ∃ y, x = ')' :: y := by
    cases x with
    | nil => cases hx
    | cons c y => exact ⟨y, by rw [Option.some.inj hx]⟩
  exact ⟨ps, reads_parenthesis hps hnest, fun _ => ⟨hps, ⟨[], hnest⟩, rfl⟩⟩

/-- A closed call is converted if its arguments and what stands behind it are. -/
theorem convertCall_closed {a r t inner front done : Text} {k : Nat} (ho : opened? a = some (front, inner))
    (hbehind : behindParenthesis t = inner ++ r) (hc : closingIn ['('] inner = some k)
    (hc' : closingIn ['('] (inner ++ r) = some k)
    (hargs : ∀ unit first last, splitTopLevel (inner.take k) ',' = [unit, first, last] →
      (∀ x, ConvertsTo (Text.trim last) (middle ++ x)) ∧ ∀ x, ConvertsTo (Text.trim first) (closing ++ x))
    (hrest : ConvertsTo (inner.drop (k + 1)) r) :
    ((∀ c ∈ calls a, c.WellFormed) →
        convertCall (done ++ front) t = convertFrom (done ++ bottomUp a) r) ∧
      ((∃ c ∈ calls a, ¬ c.WellFormed) → ∃ e, convertCall (done ++ front) t = .error e) := by
  obtain ⟨within, hcalls, hwithin, -⟩ := calls_closed ho hc
  have hlt := closingIn_lt hc
  have htake : (inner ++ r).take k = inner.take k := List.take_append_of_le_length (Nat.le_of_lt hlt)
  have hdrop : (inner ++ r).drop (k + 1) = inner.drop (k + 1) ++ r := List.drop_append_of_le_length hlt
  rw [convertCall, hbehind, hc', hcalls]
  simp only [htake, hdrop]
  cases hd : read (t.take (functionName.length + ((t.drop functionName.length).takeWhile isBlank).length + (k + 1) + 1))
      (inner.take k) with
  | error e =>
    refine ⟨fun hw => ?_, fun _ => ⟨e, rfl⟩⟩
    obtain ⟨_, _, hok⟩ := Call.wellFormed_iff.mp (hw ⟨some (inner.take k)⟩ (by simp))
    rw [read_eq_ok_iff.mpr (read_eq_ok_iff.mp hok)] at hd
    cases hd
  | ok d =>
    obtain ⟨unit, first, last, hs, rfl, hu, hf, hl⟩ := read_eq_ok_iff.mp hd
    have hwf : (Call.mk (some (inner.take k))).WellFormed := Call.wellFormed_iff.mpr ⟨_, _, hd⟩
    obtain ⟨hlast, hfirst⟩ := hargs unit first last hs
    have hboth := @convertFrom_render (Text.trim unit) _ _ (inner.drop (k + 1) ++ r) (done ++ front) hlast hfirst
    rw [hwithin unit first last hs, bottomUp_call ho hc hs]
    by_cases hw : ∀ c ∈ calls (Text.trim first) ++ calls (Text.trim last), c.WellFormed
    · have hend : (done ++ front ++ render ⟨Text.trim unit, bottomUp (Text.trim first),
          bottomUp (Text.trim last)⟩).getLast?.any isWord = false := by
        have : closing.getLast? = some ')' := by decide +kernel
        rw [render, List.getLast?_append, List.getLast?_append, this]
        exact (by decide : isWord ')' = false)
      simp only
      rw [hboth.1 hw]
      obtain ⟨hafter, hafter'⟩ := hrest _ hend
      constructor
      · intro hall
        rw [hafter fun c hc => hall c (List.mem_append_right _ hc)]
        simp only [List.append_assoc]
      · rintro ⟨c, hc, hno⟩
        rcases List.mem_append.mp hc with hc | hc
        · rcases List.mem_cons.mp hc with rfl | hc
          · exact absurd hwf hno
          · exact absurd (hw c hc) hno
        · exact hafter' ⟨c, hc, hno⟩
    · refine ⟨fun hall => absurd (fun c hc => hall c ?_) hw, fun _ => hboth.2 ?_⟩
      · exact List.mem_append_left _ (List.mem_cons_of_mem _ hc)
      · simpa only [Classical.not_forall, exists_prop] using hw

/-- **From the outside in as from the inside out.** A text that is read apart from what follows is converted as its
calls are from the inside out, and it is refused if one of them is not well-formed. -/
theorem convertsTo {a r : Text} {ps : List Piece} (h : Placed a r ps) (hclosed : ∀ c ∈ calls a, c.Closed) :
    ConvertsTo a r := by
  induction hlen : a.length using Nat.strongRecOn generalizing a r ps with
  | ind m ih =>
    intro done hdone
    have hbefore : firstIn startsCall done.getLast? ps = firstIn startsCall none ps :=
      firstIn_before (startsCall_before hdone) ps
    cases hn : firstIn startsCall none ps with
    | none =>
      have ho : opened? a = none := by rw [opened?, h.firstIn_alone, hn]; rfl
      rw [calls_eq_nil ho, bottomUp_eq_self ho]
      refine ⟨fun _ => ?_, fun ⟨c, hc, _⟩ => absurd hc (by simp)⟩
      exact convertFrom_skip h.reads (fun b x u hu _ => startsCall_append_parenthesis hu fun hr => (h.settled hr).2.2)
        (hbefore.trans hn)
    | some n =>
      obtain ⟨ms, v, bl, inner, qs, ho, htake, hbehind, hopened, -⟩ := h.call hn
      have hfirst : firstIn startsCall done.getLast? (pieces (a ++ r)) = some n := by
        rw [h.firstIn_append, hbefore, hn]
        rfl
      rw [convertFrom_call hfirst, htake]
      cases hc : closingIn ['('] inner with
      | none =>
        have hill : ¬ (Call.mk none).WellFormed := fun ⟨_, _, _, hp, _⟩ => by cases hp
        rw [calls_unclosed ho hc, convertCall, hbehind, hopened.closingIn_append, hc]
        exact ⟨fun hw => absurd (hw _ List.mem_cons_self) hill, fun _ => ⟨_, rfl⟩⟩
      | some k =>
        obtain ⟨within, hcalls, hwithin, -⟩ := calls_closed ho hc
        rw [hcalls] at hclosed
        obtain ⟨q, rs, -, hq, hnest, hrs⟩ := hopened.arguments hc
        refine convertCall_closed ho hbehind hc (hopened.closingIn_append.trans hc) (fun unit first last hs => ?_) ?_
        · obtain ⟨p, f, l, -, hfr, hlr, hfn, hln, -⟩ := reads_arguments hq hnest hs
          rw [hwithin unit first last hs] at hclosed
          have hpart : ∀ part ∈ [unit, first, last], leavesCommentOpen (Text.trim part) = false := fun part hm => by
            refine hclosed ⟨some (inner.take k)⟩ (by simp) _ ?_
            rw [Call.parts_some, hs]
            exact List.mem_map_of_mem hm
          constructor
          · intro x
            obtain ⟨_, hplaced⟩ := Placed.of_argument hlr (by simp) hln (hpart last (by simp)) (head?_append_some head?_middle x)
            exact ih _ (hlen ▸ trim_lt ho hs (by simp)) hplaced (fun c hc => hclosed c (by simp [hc])) rfl
          · intro x
            obtain ⟨_, hplaced⟩ := Placed.of_argument hfr (by simp) hfn (hpart first (by simp)) (head?_append_some head?_closing x)
            exact ih _ (hlen ▸ trim_lt ho hs (by simp)) hplaced (fun c hc => hclosed c (by simp [hc])) rfl
        · exact ih _ (hlen ▸ drop_lt ho) hrs (fun c hc => hclosed c (List.mem_append_right _ hc)) rfl

/-- The conversion of a text whose arguments leave no comment open. -/
theorem convert_eq_bottomUp {text : Text} (hclosed : ∀ c ∈ calls text, c.Closed) :
    ((∀ c ∈ calls text, c.WellFormed) → convert text = .ok (bottomUp text)) ∧
      ((∃ c ∈ calls text, ¬ c.WellFormed) → ∃ e, convert text = .error e) := by
  obtain ⟨h, h'⟩ := convertsTo (Placed.whole text) hclosed [] rfl
  rw [List.append_nil] at h h'
  refine ⟨fun hw => ?_, h'⟩
  rw [convert, h hw, convertFrom_of_none (by simp [firstIn]), List.append_nil, List.nil_append]

end SqlDialect.TimeDifference
