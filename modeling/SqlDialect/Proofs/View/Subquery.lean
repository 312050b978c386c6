import SqlDialect.Proofs.View.Comments
import SqlDialect.Proofs.View.Header

/-!
# Subqueries in a run

A run that is too long goes down to its last parenthesis, whatever stands behind it. In front of SELECT that is the
parenthesis of a derived table, which no join has put there. Any other parenthesis in front of SELECT stays: the search
for the closing ones counts it as open until it is closed, so nothing goes between it and the word behind SELECT.

* `keeps_closers`: the search for closing parentheses takes nothing away from a subquery.
* `keeps_unnest`: a step takes the parenthesis of a subquery away exactly if its run stands in front of one.
* `keepsSubqueries_iff`: all parentheses of subqueries stay exactly if no run that goes stands in front of one.
-/

namespace SqlDialect.View

/-! ## Parentheses in front of SELECT -/

/-- The keyword of a subquery. -/
@[irreducible] def selectWord : Text := "select".toList

/-- Does SELECT stand at the start of a text, or behind blanks there? -/
def startsSelect (text : Text) : Bool := startsKeyword selectWord none (text.dropWhile isBlank)

/-- Every opening parenthesis in front of SELECT stays, as far as the flags say what goes. -/
def KeepsSubqueries (fs : List Bool) (text : Text) : Prop :=
  ∀ i, text[i]? = some '(' → startsSelect (text.drop (i + 1)) = true → fs[i]? ≠ some false

/-- The texts behind a FROM that the removal comes to in a text, as the steps before leave them; `before` is the
character in front of the text. -/
inductive ComesTo : Option Char → Text → Text → Prop where
  | here {before : Option Char} {text : Text} {n : Nat} (h : findKeyword fromWord before text = some n) :
      ComesTo before text (text.drop (n + fromWord.length))
  | later {before : Option Char} {text rest : Text} {n : Nat} (h : findKeyword fromWord before text = some n)
      (hs : ComesTo fromWord.getLast? (unnest (text.drop (n + fromWord.length))).1 rest) : ComesTo before text rest

/-- What stands behind the run that a text starts with. -/
def behindRun (text : Text) : Text := text.drop (openingRun text).length

/-- How many parentheses behind the run are taken for those that close it. -/
def closers (text : Text) : Nat := (dropClosers ((openingRun text).count '(') 0 (behindRun text)).2

/-- The run that a text starts with goes at its end, where a subquery stands behind it. -/
def StripsSubquery (text : Text) : Prop :=
  threshold < (openingRun text).count '(' ∧ 0 < closers text ∧ startsSelect (behindRun text) = true

section Select

variable {c : Char} {fs gs : List Bool} {text run u x y : Text}

theorem selectWord_eq : selectWord = ['s', 'e', 'l', 'e', 'c', 't'] := by decide +kernel

theorem isWord_selectWord : ∀ c ∈ selectWord, isWord c = true := by
  rw [selectWord_eq]
  decide

/-- Whether SELECT stands somewhere is decided up to the first character that is no blank and belongs to no word. -/
theorem startsSelect_stop (hblank : isBlank c = false) (hword : isWord c = false) (u x : Text) :
    startsSelect (u ++ c :: x) = startsSelect (u ++ [c]) := by
  have hdrop : ∀ y, (u ++ c :: y).dropWhile isBlank = (u.dropWhile isBlank ++ [c]) ++ y := fun y => by
    have hstop : (c :: y).dropWhile isBlank = c :: y := List.dropWhile_cons_of_neg (by simp [hblank])
    rw [List.dropWhile_append, hstop]
    split
    · next hnil => simp [List.isEmpty_iff.mp hnil]
    · simp
  have hnil := hdrop []
  rw [List.append_nil] at hnil
  rw [startsSelect, startsSelect, hdrop, hnil]
  refine startsKeyword_append isWord_selectWord (by simp) (.inl fun d hd => ?_)
  rw [List.getLast?_concat, Option.some.injEq] at hd
  rw [← hd, hword]

theorem startsSelect_blanks (hu : ∀ c ∈ u, isBlank c = true) (x : Text) : startsSelect (u ++ x) = startsSelect x := by
  rw [startsSelect, startsSelect, List.dropWhile_append_of_pos hu]

/-- No SELECT stands where a run has another parenthesis. -/
theorem startsSelect_run (hrun : ∀ c ∈ run, c = '(' ∨ isBlank c = true) (x : Text) :
    startsSelect (run ++ x) = if 0 < run.count '(' then false else startsSelect x := by
  induction run with
  | nil => rfl
  | cons c run ih =>
    rcases hrun c List.mem_cons_self with rfl | hc
    · have hstarts : Text.starts selectWord ('(' :: (run ++ x)) = false := by
        rw [selectWord_eq, Text.starts]
        rfl
      rw [List.count_cons_self, if_pos (Nat.succ_pos _), startsSelect, List.cons_append,
        List.dropWhile_cons_of_neg (by decide), startsKeyword, hstarts]
      rfl
    · have hne : c ≠ '(' := by rintro rfl; cases hc
      rw [List.count_cons_of_ne hne, ← ih fun d hd => hrun d (List.mem_cons_of_mem _ hd), List.cons_append]
      exact startsSelect_blanks (u := [c]) (by simpa using hc) _

/-! ## Flags -/

theorem keeps_cons : KeepsSubqueries fs (c :: text) ↔
    (c = '(' → startsSelect text = true → fs.headD true = true) ∧ KeepsSubqueries fs.tail text := by
  constructor
  · intro h
    refine ⟨fun hc hs => ?_, fun i hi hs => ?_⟩
    · have h0 := h 0 (by rw [hc]; rfl) hs
      cases fs with
      | nil => rfl
      | cons f fs => simpa using h0
    · have hi' := h (i + 1) (by simpa using hi) (by simpa using hs)
      cases fs with
      | nil => simp
      | cons f fs => simpa using hi'
  · rintro ⟨h0, h⟩ i hi hs
    cases i with
    | zero =>
      have hf := h0 (by simpa using hi) (by simpa using hs)
      cases fs with
      | nil => simp
      | cons f fs => simpa using hf
    | succ i =>
      have hi' := h i (by simpa using hi) (by simpa using hs)
      cases fs with
      | nil => simp
      | cons f fs => simpa using hi'

theorem keeps_behind (x : Text) : KeepsSubqueries (List.replicate x.length true ++ fs) (x ++ text) ↔
    KeepsSubqueries fs text := by
  induction x with
  | nil => rfl
  | cons c x ih =>
    rw [List.length_cons, List.replicate_succ, List.cons_append, List.cons_append, keeps_cons, List.tail_cons, ih]
    simp

/-- **What stays in front.** A part from which nothing goes keeps its subqueries as the rest does, if what follows its
parentheses starts with SELECT behind the step as before it. -/
theorem keeps_merge (x : Text)
    (hx : ∀ a b, x = a ++ '(' :: b → startsSelect (b ++ select fs text) = startsSelect (b ++ text))
    (h : ∀ gs, KeepsSubqueries (merge fs gs) text ↔ KeepsSubqueries gs (select fs text)) (gs : List Bool) :
    KeepsSubqueries (merge (List.replicate x.length true ++ fs) gs) (x ++ text) ↔
      KeepsSubqueries gs (x ++ select fs text) := by
  induction x generalizing gs with
  | nil => exact h gs
  | cons c x ih =>
    rw [List.length_cons, List.replicate_succ, List.cons_append, List.cons_append, List.cons_append, merge, keeps_cons,
      keeps_cons, List.tail_cons, List.headD_cons, ih fun a b he => hx (c :: a) b (by rw [he]; rfl)]
    refine and_congr_left fun _ => forall_congr' fun hc => ?_
    rw [hx [] x (by rw [hc]; rfl)]

theorem keeps_stay (text : Text) (gs : List Bool) :
    KeepsSubqueries (merge (List.replicate text.length true) gs) text ↔ KeepsSubqueries gs text := by
  have hnil : ∀ gs, KeepsSubqueries (merge [] gs) [] ↔ KeepsSubqueries gs (select [] []) := fun gs => by
    simp [KeepsSubqueries, select]
  have h := keeps_merge text (fun _ _ _ => rfl) hnil gs
  simpa [select] using h

theorem merge_front {xs : Text} {fs' : List Bool} (h : fs.length = xs.length) (gs : List Bool) :
    merge (fs ++ fs') (List.replicate (select fs xs).length true ++ gs) = fs ++ merge fs' gs := by
  induction fs generalizing xs with
  | nil =>
    cases xs <;> simp [select]
  | cons f fs ih =>
    obtain ⟨x, xs, rfl⟩ := List.exists_cons_of_length_eq_add_one h.symm
    have hrest := ih (Nat.succ.inj h)
    cases f <;> simp [select, merge, List.replicate_succ, hrest]

/-! ## The closing parentheses -/

theorem settle_plain (hu : ∀ c ∈ u, isQuote c = false ∧ c ≠ '(' ∧ c ≠ ')') (depth : Nat) :
    settle depth u = some depth := by
  induction u with
  | nil => rw [settle]
  | cons c u ih =>
    obtain ⟨hq, hopen, hclose⟩ := hu c List.mem_cons_self
    have hcode : ¬ (isQuote c = true ∨ (c = ')' ∧ depth = 0)) := by simp [hq, hclose]
    rw [settle_code (literalTail?_of_code hq u) hcode, depthBehind, if_neg hopen, if_neg hclose]
    exact ih fun d hd => hu d (List.mem_cons_of_mem _ hd)

/-- Inside a parenthesis the next character stays. -/
theorem closerFlags_inside (limit depth : Nat) (c : Char) (text : Text) :
    ∃ fs, closerFlags limit (depth + 1) (c :: text) = true :: fs := by
  by_cases hl : limit = 0
  · exact ⟨_, by rw [hl, closerFlags_zero]; rfl⟩
  · cases hn : literalTail? c text with
    | none => exact ⟨_, closerFlags_code hl hn (by simp)⟩
    | some n => exact ⟨_, by rw [closerFlags_literal hl hn]; rfl⟩

/-- **Inside a parenthesis** a step does not change whether SELECT stands there. -/
theorem startsSelect_closers (limit depth : Nat) (text : Text) :
    startsSelect (select (closerFlags limit (depth + 1) text) text) = startsSelect text := by
  by_cases hl : limit = 0
  · rw [hl, closerFlags_zero, select_all]
  · obtain ⟨u, rest, rfl, hu, hrest⟩ : ∃ u rest, text = u ++ rest ∧ (∀ c ∈ u, (isBlank c || isWord c) = true) ∧
        rest.head?.any (fun c => isBlank c || isWord c) = false := by
      exact ⟨_, _, span_eq_iff.mp ⟨rfl, rfl⟩⟩
    have hplain : ∀ c ∈ u, isQuote c = false ∧ c ≠ '(' ∧ c ≠ ')' := by
      intro c hc
      obtain ⟨hq, ho, hcl⟩ := neutral_of_class (p := fun c => isBlank c || isWord c) (by decide) (hu c hc)
      refine ⟨hq, fun he => ?_, fun he => ?_⟩
      · rw [he] at ho
        cases ho
      · rw [he] at hcl
        cases hcl
    rw [closerFlags_of_settle (settle_plain hplain _) hl, select_append List.length_replicate, select_all]
    cases rest with
    | nil => simp [closerFlags, select]
    | cons c rest =>
      obtain ⟨fs, hfs⟩ := closerFlags_inside limit depth c rest
      simp only [List.head?_cons, Option.any_some, Bool.or_eq_false_iff] at hrest
      rw [hfs, select, startsSelect_stop hrest.1 hrest.2]
      exact (startsSelect_stop hrest.1 hrest.2 _ _).symm

/-- **The closing parentheses.** No subquery loses its parenthesis where closing ones go, and none comes about. -/
theorem keeps_closers (limit depth : Nat) (text : Text) (gs : List Bool) :
    KeepsSubqueries (merge (closerFlags limit depth text) gs) text ↔
      KeepsSubqueries gs (select (closerFlags limit depth text) text) := by
  fun_induction closerFlags limit depth text generalizing gs with
  | case1 => simp [KeepsSubqueries, select]
  | case2 => rw [keeps_stay, select_all]
  | case3 limit depth c rest hl n hn ih =>
    have hsplit : c :: rest = (c :: rest.take n) ++ rest.drop n := by simp
    conv => lhs; arg 2; rw [hsplit]
    conv => rhs; arg 2; arg 2; rw [hsplit]
    rw [select_append List.length_replicate, select_all]
    refine keeps_merge _ (fun a b he => ?_) ih gs
    -- the literal ends in its quote
    obtain ⟨hq, hlast⟩ := getLast?_of_literalTail? hn
    have hquote : isBlank c = false ∧ isWord c = false ∧ c ≠ '(' := by
      simp only [isQuote, Bool.or_eq_true, decide_eq_true_eq] at hq
      rcases hq with (rfl | rfl) | rfl <;> decide
    have hend : (c :: rest.take n).getLast? = some c := by rw [List.getLast?_cons, hlast]; rfl
    rw [he, List.getLast?_append, List.getLast?_cons] at hend
    rcases List.eq_nil_or_concat b with rfl | ⟨b, d, rfl⟩
    · exact absurd (by simpa using hend.symm) hquote.2.2
    · obtain rfl : d = c := by simpa [List.concat_eq_append] using hend
      rw [List.concat_eq_append, List.append_assoc, List.append_assoc]
      exact (startsSelect_stop hquote.1 hquote.2.1 _ _).trans (startsSelect_stop hquote.1 hquote.2.1 _ _).symm
  | case4 limit depth c rest hl hn hc ih =>
    obtain ⟨rfl, rfl⟩ := hc
    rw [merge, select, keeps_cons, List.tail_cons, ih]
    simp
  | case5 limit depth c rest hl hn hc ih =>
    rw [merge, select, keeps_cons, keeps_cons, List.tail_cons, List.headD_cons, ih]
    refine and_congr_left fun _ => forall_congr' fun hparen => ?_
    subst hparen
    rw [depthBehind, if_pos rfl, startsSelect_closers]

/-! ## A step -/

/-- In a run only the last parenthesis can stand in front of SELECT, and it goes if any one does. -/
theorem keeps_run (hrun : ∀ c ∈ run, c = '(' ∨ isBlank c = true) (m : Nat) :
    KeepsSubqueries (openerFlags m run ++ fs) (run ++ text) ↔
      (m < run.count '(' → startsSelect text = false) ∧ KeepsSubqueries fs text := by
  induction run generalizing m with
  | nil => simp [openerFlags]
  | cons c run ih =>
    have hrest : ∀ d ∈ run, d = '(' ∨ isBlank d = true := fun d hd => hrun d (List.mem_cons_of_mem _ hd)
    rcases hrun c List.mem_cons_self with rfl | hc
    · rw [List.count_cons_self]
      cases m with
      | zero =>
        rw [openerFlags, List.cons_append, List.cons_append, keeps_cons, List.tail_cons, List.headD_cons, ih hrest,
          startsSelect_run hrest]
        by_cases hcount : 0 < run.count '('
        · simp [hcount]
        · simp [hcount]
      | succ m =>
        rw [openerFlags, List.cons_append, List.cons_append, keeps_cons, List.tail_cons, List.headD_cons, ih hrest,
          Nat.add_lt_add_iff_right]
        simp
    · have hne : c ≠ '(' := by rintro rfl; cases hc
      have hflags : openerFlags m (c :: run) = true :: openerFlags m run := by
        rw [openerFlags]
        · rintro - rfl
          exact hne rfl
        · rintro k - rfl
          exact hne rfl
      rw [hflags, List.cons_append, List.cons_append, keeps_cons, List.tail_cons, List.headD_cons, ih hrest,
        List.count_cons_of_ne hne]
      simp

/-- No FROM stands in a run. -/
theorem flagsFrom_run (hrun : ∀ c ∈ run, c = '(' ∨ isBlank c = true) (before : Option Char) (text : Text) :
    ∃ gs, flagsFrom before (run ++ text) = List.replicate run.length true ++ gs := by
  cases h : findKeyword fromWord before (run ++ text) with
  | none =>
    rw [(flagsFrom_of_none h).1, List.length_append, ← List.replicate_append_replicate]
    exact ⟨_, rfl⟩
  | some n =>
    obtain ⟨b, hkeyword, hlt⟩ := findKeyword_startsKeyword h
    have hle : run.length ≤ n := Nat.le_of_not_lt fun hn => by
      obtain ⟨v, u, hv, hlower⟩ := starts_iff.mp (starts_of_startsKeyword hkeyword)
      rw [List.drop_append_of_le_length (by omega)] at hv
      obtain ⟨c, v, rfl⟩ : ∃ c v', v = c :: v' := by
        cases v with
        | nil => exact absurd (List.map_eq_nil_iff.mp hlower.symm) fromWord_ne_nil
        | cons c v => exact ⟨c, v, rfl⟩
      have hc : c ∈ run := by
        rw [List.drop_eq_getElem_cons (by omega), List.cons_append, List.cons_append, List.cons.injEq] at hv
        rw [← hv.1]
        exact List.getElem_mem _
      have hword := isWord_of_lower_eq hlower isWord_fromWord c List.mem_cons_self
      rcases hrun c hc with rfl | hblank
      · cases hword
      · rw [isWord_of_isBlank hblank] at hword
        cases hword
    have hstop := findKeyword_add_le h
    rw [(flagsFrom_of_some h rfl rfl).1, List.length_take, Nat.min_eq_left hstop,
      show n + fromWord.length = run.length + (n + fromWord.length - run.length) by omega,
      ← List.replicate_append_replicate, List.append_assoc]
    exact ⟨_, rfl⟩

/-- **A step.** The parenthesis of a subquery goes exactly if it is the last of a run that goes, and those that stay are
the same behind the step as before it. -/
theorem keeps_unnest (before : Option Char) (text : Text) :
    KeepsSubqueries (merge (unnestFlags text) (flagsFrom before (unnest text).1)) text ↔
      ¬ StripsSubquery text ∧ KeepsSubqueries (flagsFrom before (unnest text).1) (unnest text).1 := by
  obtain ⟨run, behind, htext, hrun, hbehind, hclass⟩ := openingRun_split text
  unfold StripsSubquery closers behindRun unnestFlags unnest
  simp only
  rw [hrun, hbehind]
  split
  · next hshort =>
    rw [keeps_stay]
    exact (and_iff_right fun h => absurd h.1 (by omega)).symm
  · next hlong =>
    have hle := Bytes.dropClosers_le (run.count '(') 0 behind
    obtain ⟨-, hkept', -, -⟩ := closerFlags_spec (run.count '(') 0 behind
    generalize hk : (dropClosers (run.count '(') 0 behind).2 = k at hle
    obtain ⟨hlen, hkept, -⟩ := openerFlags_spec (run.count '(' - k) run
    have hclass' : ∀ c ∈ keepOpeners (run.count '(' - k) run, c = '(' ∨ isBlank c = true := fun c hc =>
      hclass c ((select_sublist _ _).subset (hkept ▸ hc))
    obtain ⟨gs, hgs⟩ := flagsFrom_run hclass' before (dropClosers (run.count '(') 0 behind).1
    rw [hgs, keeps_behind, ← hkept, merge_front hlen, ← htext, keeps_run hclass, keeps_closers, hkept']
    refine and_congr_left fun _ => ?_
    constructor
    · rintro h ⟨-, hpos, hselect⟩
      rw [h (by omega)] at hselect
      cases hselect
    · intro h hlt
      rw [Bool.eq_false_iff]
      exact fun hselect => h ⟨by omega, by omega, hselect⟩

end Select

/-! ## All steps -/

theorem comesTo_iff {before : Option Char} {text rest : Text} {n : Nat}
    (h : findKeyword fromWord before text = some n) :
    ComesTo before text rest ↔ rest = text.drop (n + fromWord.length) ∨
      ComesTo fromWord.getLast? (unnest (text.drop (n + fromWord.length))).1 rest := by
  constructor
  · rintro (⟨h'⟩ | ⟨h', hs⟩)
    · rw [h, Option.some.injEq] at h'
      exact .inl (by rw [h'])
    · rw [h, Option.some.injEq] at h'
      subst h'
      exact .inr hs
  · rintro (rfl | hs)
    · exact .here h
    · exact .later h hs

/-- **All steps.** By induction on the steps. -/
theorem keeps_flagsFrom (before : Option Char) (text : Text) :
    KeepsSubqueries (flagsFrom before text) text ↔ ∀ rest, ComesTo before text rest → ¬ StripsSubquery rest := by
  fun_induction flagsFrom before text with
  | case1 before text h =>
    constructor
    · rintro - rest (⟨h'⟩ | ⟨h', -⟩) <;> (rw [h] at h'; cases h')
    · rintro - i - - hi
      cases List.eq_of_mem_replicate (List.mem_of_getElem? hi)
  | case2 before text n h stop rest ih =>
    have htext : text.take stop ++ rest = text := List.take_append_drop stop text
    conv => lhs; arg 2; rw [← htext]
    rw [keeps_behind, keeps_unnest, ih]
    constructor
    · rintro ⟨hhere, hlater⟩ rest' hr
      rcases (comesTo_iff h).mp hr with rfl | hs
      · exact hhere
      · exact hlater rest' hs
    · exact fun hall => ⟨hall rest (.here h), fun rest' hs => hall rest' (.later h hs)⟩

/-- In a balanced text with neutral regions each parenthesis of a run has one that closes it. -/
theorem Tidy.closers_eq {s : List Char} {front : Option Char} {text : Text} (h : Tidy s front text) :
    closers text = (openingRun text).count '(' := by
  obtain ⟨run, behind, htext, hrun, hbehind, hclass⟩ := openingRun_split text
  obtain ⟨hnest, hneutral, -⟩ := h
  have hp : pieces text = run.map .code ++ pieces behind := by rw [← htext]; exact reads_run hclass behind
  rw [hp] at hnest hneutral
  rw [nest_run hclass] at hnest
  have hcount := count_closerFlags_of_nest hnest fun kind t ht => hneutral kind t (List.mem_append_right _ ht)
  rw [textOf_pieces, (closerFlags_spec ..).2.2.2] at hcount
  rw [closers, behindRun, hrun, hbehind, hcount]

theorem ComesTo.tidy {s : List Char} {front before : Option Char} {text rest : Text} (hs : ComesTo before text rest)
    (h : Tidy s front text) : ∃ s' front', Tidy s' front' rest := by
  induction hs generalizing s front with
  | here hfrom =>
    obtain ⟨ms, s', -, -, -, hrest, -⟩ := h.step hfrom
    exact ⟨s', _, hrest⟩
  | later hfrom _ ih =>
    obtain ⟨ms, s', -, -, -, -, hleft, -⟩ := h.step hfrom
    exact ih hleft

/-- **Subqueries among the joins.** What goes is what the flags say. Every opening parenthesis in front of SELECT stays
exactly if no run that goes at its end stands in front of a subquery. In a balanced definition without comments, and
without a closing parenthesis directly behind a dash or a slash, these are the runs that are too long. -/
theorem keepsSubqueries_iff (text : Text) :
    select (removalFlags text) text = removeRedundantBrackets text ∧
      (KeepsSubqueries (removalFlags text) text ↔ ∀ rest, ComesTo none text rest → ¬ StripsSubquery rest) ∧
      (WellFormed text → Spaced text → ∀ rest, ComesTo none text rest →
        (StripsSubquery rest ↔ threshold < (openingRun rest).count '(' ∧ startsSelect (behindRun rest) = true)) := by
  refine ⟨(flagsFrom_spec none text).2, keeps_flagsFrom none text, fun hwell hspaced rest hcomes => ?_⟩
  have hneutral : ∀ kind t, .region kind t ∈ pieces text → Neutral t := fun kind t ht => by
    cases kind with
    | literal => exact neutral_of_literal ht
    | comment => exact absurd ht (hwell.comment t)
  obtain ⟨s', front', hrest⟩ := hcomes.tidy ⟨hwell.nest, hneutral, firmIn_of_spaced hspaced⟩
  rw [StripsSubquery, hrest.closers_eq]
  exact ⟨fun h => ⟨h.1, h.2.2⟩, fun h => ⟨h.1, Nat.lt_of_le_of_lt (Nat.zero_le _) h.1, h.2⟩⟩

/-- The twelfth parenthesis is that of a derived table, and goes with the others. -/
theorem not_keepsSubqueries_derived :
    let text := "select * from ((((((((((((select 1 x))))))))))))".toList
    let rest := " ((((((((((((select 1 x))))))))))))".toList
    WellFormed text ∧ Spaced text ∧ ComesTo none text rest ∧ StripsSubquery rest ∧
      text[25]? = some '(' ∧ (removalFlags text)[25]? = some false ∧
      removeRedundantBrackets text = "select * from select 1 x".toList ∧
      ¬ KeepsSubqueries (removalFlags text) text := by
  intro text rest
  have htext : nest [] (pieces text) = some [] ∧ (∀ c ∈ ['-', '/'], ¬ [.code c, .code ')'] <:+: pieces text) ∧
      ∀ p ∈ pieces text, p.isComment = false := by decide +kernel
  obtain ⟨hnest, hspaced, hcomment⟩ := htext
  have hwell : WellFormed text := ⟨no_comment_iff.mpr hcomment, hnest⟩
  have hfrom : findKeyword fromWord none text = some 9 := by decide +kernel
  have hrest : text.drop (9 + fromWord.length) = rest := by decide +kernel
  have hcomes : ComesTo none text rest := hrest ▸ .here hfrom
  obtain ⟨-, hiff, hlong⟩ := keepsSubqueries_iff text
  have hstrips : StripsSubquery rest := (hlong hwell hspaced rest hcomes).mpr (by decide +kernel)
  exact ⟨hwell, hspaced, hcomes, hstrips, by decide +kernel, by decide +kernel, by decide +kernel,
    fun hkeeps => hiff.mp hkeeps rest hcomes hstrips⟩

end SqlDialect.View
