import Mathlib.Data.List.Induction
import SqlDialect.Proofs.Interval.Decomposition
import SqlDialect.Proofs.View.Comments

/-!
# Parentheses are removed in pairs

The closing parentheses that a step takes away are found by counting, and the first one found goes with the last one of
the run. In a well-formed text these are partners, so what is left is balanced, as long as it is read as it was. It is
not where the characters around a parenthesis that goes open a comment.

* `closerFlags_pairs`: the closing parentheses that go are the partners of those of the run.
* `takesParentheses`: what a step takes away of any text.
* `takesPartners`: what a step takes away of a well-formed text.
* `wellFormed_unnestAt_iff`, `wellFormed_unnestAt_of_firm`: when it leaves a well-formed text.
* `unnestAt_opens_comment`: a step that leaves a bracket without its partner.
-/

namespace SqlDialect.View

/-! ## Partners -/

section Partners

variable {s : List Char} {ps : List Piece} {run text : Text}

/-- The flags of a text that starts at `stop` are false where the parentheses of a run that starts at `start` have their
partners, and each of them has one there. -/
structure Paired (text run : Text) (start stop : Nat) (fs : List Bool) : Prop where
  closed : ∀ i, run[i]? = some '(' → ∃ j, findClosing text (start + i) = some (stop + j)
  gone : ∀ j, fs[j]? = some false ↔ ∃ i, run[i]? = some '(' ∧ findClosing text (start + i) = some (stop + j)

theorem opens_append {i : Nat} {c : Char} :
    (run ++ [c])[i]? = some '(' ↔ run[i]? = some '(' ∨ i = run.length ∧ c = '(' := by
  rcases Nat.lt_trichotomy i run.length with hi | rfl | hi
  · simp [List.getElem?_append_left hi, Nat.ne_of_lt hi]
  · simp
  · have hnone : (run ++ [c])[i]? = none := List.getElem?_eq_none (by rw [List.length_append]; exact hi)
    simp [hnone, List.getElem?_eq_none (Nat.le_of_lt hi), Nat.ne_of_gt hi]

/-- A blank at the end of the run changes nothing. -/
theorem Paired.blank {start stop : Nat} {fs : List Bool} {c : Char} (h : Paired text run start stop fs) (hc : c ≠ '(') :
    Paired text (run ++ [c]) start stop fs := by
  have hsame : ∀ i, (run ++ [c])[i]? = some '(' ↔ run[i]? = some '(' := fun i => by
    rw [opens_append, or_iff_left fun h => hc h.2]
  exact ⟨by simpa only [hsame] using h.closed, by simpa only [hsame] using h.gone⟩

/-- One parenthesis more at the end of the run has its partner in front of the others. -/
theorem Paired.innermost {start stop m : Nat} {fs : List Bool} (h : Paired text run start (stop + (m + 1)) fs)
    (hself : findClosing text (start + run.length) = some (stop + m)) :
    Paired text (run ++ ['(']) start stop (List.replicate m true ++ false :: fs) := by
  refine ⟨fun i hi => ?_, fun j => ?_⟩
  · rcases opens_append.mp hi with hi | ⟨rfl, -⟩
    · obtain ⟨j, hj⟩ := h.closed i hi
      exact ⟨m + 1 + j, by rw [hj, Nat.add_assoc]⟩
    · exact ⟨m, hself⟩
  · rw [flag_behind]
    constructor
    · rintro ⟨k, rfl, hk⟩
      cases k with
      | zero => exact ⟨run.length, opens_append.mpr (.inr ⟨rfl, rfl⟩), hself⟩
      | succ k =>
        obtain ⟨i, hi, hfind⟩ := (h.gone k).mp hk
        refine ⟨i, opens_append.mpr (.inl hi), ?_⟩
        rw [hfind, Option.some.injEq]
        omega
    · rintro ⟨i, hi, hfind⟩
      rcases opens_append.mp hi with hi | ⟨rfl, -⟩
      · obtain ⟨k, hk⟩ := h.closed i hi
        have hj : j = m + (k + 1) := by
          rw [hfind, Option.some.injEq] at hk
          omega
        exact ⟨k + 1, hj, (h.gone k).mpr ⟨i, hi, hk⟩⟩
      · rw [hself, Option.some.injEq] at hfind
        exact ⟨0, by omega, rfl⟩

/-- The closing parentheses that go are the partners of those of the run, by induction on the run from its end: the
innermost parenthesis is closed first, and together with its partner it is balanced for the others. -/
theorem closerFlags_pairs {front zs : List Piece} (hp : pieces text = front ++ (run.map .code ++ (zs ++ ps)))
    (hrun : ∀ c ∈ run, c = '(' ∨ isBlank c = true) (hz : nest [] zs = some [])
    (hn : nest (List.replicate (run.count '(') '(' ++ s) ps = some [])
    (hr : ∀ kind t, .region kind t ∈ ps → Neutral t) {stop : Nat}
    (hstop : (textOf front).length + run.length + (textOf zs).length = stop) :
    Paired text run (textOf front).length stop (closerFlags (run.count '(') 0 (textOf ps)) := by
  induction run using List.reverseRecOn generalizing zs ps stop with
  | nil => exact ⟨by simp, by simp [closerFlags_zero, List.getElem?_replicate]⟩
  | append_singleton run c ih =>
    have hrun' : ∀ d ∈ run, d = '(' ∨ isBlank d = true := fun d hd => hrun d (List.mem_append_left _ hd)
    rw [List.length_append, List.length_singleton] at hstop
    rcases hrun c (List.mem_append_right _ List.mem_cons_self) with rfl | hblank
    · rw [List.count_append, List.count_singleton_self] at hn ⊢
      rw [List.replicate_succ, List.cons_append] at hn
      obtain ⟨qs, rs, rfl, hqs, hrs, hflags⟩ := closerFlags_innermost hn (Nat.zero_le _) hr
      -- the pair around what stands between the run and its closing parenthesis
      have hp' : pieces text =
          front ++ (run.map .code ++ ((.code '(' :: (zs ++ (qs ++ [.code ')']))) ++ rs)) := by rw [hp]; simp
      have hin : nest [] (zs ++ qs) = some [] := by rw [nest_balanced_append hz, hqs]
      have hz' : nest [] (.code '(' :: (zs ++ (qs ++ [.code ')']))) = some [] := by
        rw [← List.append_assoc, nest_enclosed hin rfl]
      have hstop' : (textOf front).length + run.length + (textOf (.code '(' :: (zs ++ (qs ++ [.code ')'])))).length =
          stop + ((textOf qs).length + 1) := by
        simp only [textOf_cons, textOf_append, textOf_nil, Piece.text, List.length_append, List.length_singleton,
          List.length_nil]
        omega
      have hpaired := ih hp' hrun' hz' hrs
        (fun kind t ht => hr kind t (List.mem_append_right _ (List.mem_cons_of_mem _ ht))) hstop'
      have hself : findClosing text ((textOf front).length + run.length) = some (stop + (textOf qs).length) := by
        have hcut : pieces text = (front ++ run.map .code) ++ .code '(' :: ((zs ++ qs) ++ .code ')' :: rs) := by
          rw [hp]
          simp
        have h := findClosing_of_pieces hcut (by rw [textOf_append, List.length_append, textOf_map_code])
          hin rfl
        rw [h, textOf_append, List.length_append, Option.some.injEq]
        omega
      rw [hflags]
      exact hpaired.innermost hself
    · have hne : c ≠ '(' := by rintro rfl; cases hblank
      obtain ⟨hq, ho, hc⟩ := neutral_of_class (by decide) hblank
      have hcount : (run ++ [c]).count '(' = run.count '(' := by
        rw [List.count_append, List.count_singleton, if_neg (by simpa using hne), Nat.add_zero]
      rw [hcount] at hn ⊢
      have hp' : pieces text = front ++ (run.map .code ++ ((.code c :: zs) ++ ps)) := by rw [hp]; simp
      have hz' : nest [] (.code c :: zs) = some [] := by rw [nest_code hq ho hc, hz]
      have hstop' : (textOf front).length + run.length + (textOf (.code c :: zs)).length = stop := by
        simp only [textOf_cons, Piece.text, List.length_append, List.length_singleton]
        omega
      exact (ih hp' hrun' hz' hn hr hstop').blank hne

end Partners

/-! ## The step at a position -/

/-- A text with the run at a position unnested. -/
def unnestAt (text : Text) (start : Nat) : Text := text.take start ++ (unnest (text.drop start)).1

/-- For every character of a text whether it stays when the run at a position is unnested. -/
def flagsAt (text : Text) (start : Nat) : List Bool :=
  List.replicate (text.take start).length true ++ unnestFlags (text.drop start)

/-- An opening parenthesis of the run at a position. -/
def OpensRun (text : Text) (start o : Nat) : Prop :=
  start ≤ o ∧ o < start + (openingRun (text.drop start)).length ∧ text[o]? = some '('

instance (text : Text) (start o : Nat) : Decidable (OpensRun text start o) :=
  inferInstanceAs (Decidable (_ ∧ _ ∧ _))

section Position

variable {text : Text} {start : Nat}

/-- What goes at a place is among what goes. -/
theorem mem_dropped {fs : List Bool} {xs : Text} {i : Nat} (hlen : fs.length = xs.length) (h : fs[i]? = some false) :
    ∃ c, xs[i]? = some c ∧ c ∈ select (fs.map not) xs := by
  induction fs generalizing xs i with
  | nil => cases h
  | cons f fs ih =>
    obtain ⟨x, xs, rfl⟩ := List.exists_cons_of_length_eq_add_one hlen.symm
    cases i with
    | zero =>
      rw [List.getElem?_cons_zero, Option.some.injEq] at h
      subst h
      exact ⟨x, rfl, List.mem_cons_self⟩
    | succ i =>
      obtain ⟨c, hc, hm⟩ := ih (Nat.succ.inj hlen) h
      refine ⟨c, hc, ?_⟩
      cases f
      · exact List.mem_cons_of_mem _ hm
      · exact hm

/-- The flags of the step: they leave the text in front of the position and what is unnested behind it, and take away
opening parentheses and as many closing ones. -/
theorem flagsAt_spec (text : Text) (start : Nat) :
    (flagsAt text start).length = text.length ∧
      select (flagsAt text start) text = unnestAt text start ∧
      ∃ k, select ((flagsAt text start).map not) text = List.replicate k '(' ++ List.replicate k ')' := by
  obtain ⟨hlen, hkept, k, hdropped⟩ := unnestFlags_spec (text.drop start)
  have htext : text.take start ++ text.drop start = text := List.take_append_drop start text
  refine ⟨?_, ?_, k, ?_⟩
  · rw [flagsAt, List.length_append, hlen, List.length_replicate, ← List.length_append, htext]
  · conv => lhs; arg 2; rw [← htext]
    rw [flagsAt, select_append List.length_replicate, select_all, hkept, unnestAt]
  · conv => lhs; arg 2; rw [← htext]
    rw [flagsAt, List.map_append, List.map_replicate, select_append List.length_replicate, Bool.not_true, select_none,
      hdropped]
    rfl

theorem opensRun_iff {run : Text} (hrun : openingRun (text.drop start) = run) {o : Nat} :
    OpensRun text start o ↔ ∃ i, run[i]? = some '(' ∧ o = start + i := by
  obtain ⟨run', behind, htext, hrun', -, -⟩ := openingRun_split (text.drop start)
  obtain rfl : run' = run := hrun'.symm.trans hrun
  have hget : ∀ i, i < run'.length → text[start + i]? = run'[i]? := fun i hi => by
    rw [← List.getElem?_drop, ← htext, List.getElem?_append_left hi]
  rw [OpensRun, hrun]
  constructor
  · rintro ⟨hle, hlt, hc⟩
    obtain ⟨i, rfl⟩ := Nat.exists_eq_add_of_le hle
    exact ⟨i, by rw [← hget i (by omega), hc], rfl⟩
  · rintro ⟨i, hi, rfl⟩
    have hlt := (List.getElem?_eq_some_iff.mp hi).1
    exact ⟨by omega, by omega, by rw [hget i hlt, hi]⟩

/-- Of the characters of a step only those of the run are opening parentheses. -/
theorem opensRun_of_dropped {p : Nat} (h : (flagsAt text start)[p]? = some false) (hc : text[p]? = some '(') :
    OpensRun text start p := by
  obtain ⟨i, rfl, hflag⟩ := flag_behind.mp h
  have hlt : (text.take start).length + i < text.length := (List.getElem?_eq_some_iff.mp hc).1
  have hstart : (text.take start).length = start := by
    rw [List.length_take] at hlt ⊢
    omega
  rw [hstart] at hc ⊢
  rw [← List.getElem?_drop] at hc
  obtain ⟨run, behind, htext, hrun, hbehind, -⟩ := openingRun_split (text.drop start)
  refine (opensRun_iff hrun).mpr ⟨i, ?_, rfl⟩
  unfold unnestFlags at hflag
  simp only at hflag
  rw [hrun, hbehind] at hflag
  rw [← htext] at hc
  split at hflag
  · cases List.eq_of_mem_replicate (List.mem_of_getElem? hflag)
  · have hlen := (openerFlags_spec (run.count '(' - (dropClosers (run.count '(') 0 behind).2) run).1
    rcases flag_append.mp hflag with hopens | ⟨j, rfl, hcloses⟩
    · have hi : i < run.length := hlen ▸ (List.getElem?_eq_some_iff.mp hopens).1
      rwa [List.getElem?_append_left hi] at hc
    · -- behind the run only closing parentheses go
      exfalso
      rw [hlen, List.getElem?_append_right (Nat.le_add_right _ _), Nat.add_sub_cancel_left] at hc
      obtain ⟨hlen', -, hdropped, -⟩ := closerFlags_spec (run.count '(') 0 behind
      obtain ⟨c, hget, hm⟩ := mem_dropped hlen' hcloses
      rw [hc, Option.some.injEq] at hget
      rw [hdropped, ← hget] at hm
      cases List.eq_of_mem_replicate hm

theorem openerFlags_zero_iff {run : Text} {i : Nat} : (openerFlags 0 run)[i]? = some false ↔ run[i]? = some '(' := by
  generalize hn : (0 : Nat) = n
  fun_induction openerFlags n run generalizing i with
  | case1 => simp
  | case2 rest ih =>
    cases i with
    | zero => simp
    | succ i => exact ih rfl
  | case3 n rest ih => cases hn
  | case4 n c rest h h' ih =>
    cases i with
    | zero =>
      have hc : c ≠ '(' := fun hc => h hn.symm hc
      simp [hc]
    | succ i => exact ih hn

/-- The step takes away opening parentheses of the run at the position and as many closing parentheses, and nothing
else. -/
structure TakesParentheses (text : Text) (start : Nat) : Prop where
  kept : select (flagsAt text start) text = unnestAt text start
  gone : ∃ k, select ((flagsAt text start).map not) text = List.replicate k '(' ++ List.replicate k ')'
  opens : ∀ p, (flagsAt text start)[p]? = some false → text[p]? = some '(' → OpensRun text start p

/-- **A step takes away parentheses**, at any position of any text. -/
theorem takesParentheses (text : Text) (start : Nat) : TakesParentheses text start where
  kept := (flagsAt_spec text start).2.1
  gone := (flagsAt_spec text start).2.2
  opens _ := opensRun_of_dropped

/-! ## Behind a FROM of a well-formed text -/

/-- The position is the end of a FROM in code, which starts at `f`, and a run that is too long stands there. -/
structure BehindFrom (text : Text) (f start : Nat) : Prop where
  code : regionAt? (regions text) f = none
  keyword : startsKeyword fromWord (text.take f).getLast? (text.drop f) = true
  stop : start = f + fromWord.length
  long : threshold < (openingRun (text.drop start)).count '('

instance (text : Text) (f start : Nat) : Decidable (BehindFrom text f start) :=
  decidable_of_iff (regionAt? (regions text) f = none ∧ startsKeyword fromWord (text.take f).getLast? (text.drop f) = true ∧
      start = f + fromWord.length ∧ threshold < (openingRun (text.drop start)).count '(')
    ⟨fun ⟨h₁, h₂, h₃, h₄⟩ => ⟨h₁, h₂, h₃, h₄⟩, fun ⟨h₁, h₂, h₃, h₄⟩ => ⟨h₁, h₂, h₃, h₄⟩⟩

/-- The text is cut between two pieces there. -/
theorem BehindFrom.cut {f : Nat} (hf : BehindFrom text f start) :
    ∃ front, pieces text = front ++ pieces (text.drop start) ∧ (textOf front).length = start := by
  obtain ⟨hcode, hk, rfl, -⟩ := hf
  obtain ⟨v, u, hvu, hv⟩ := starts_iff.mp (starts_of_startsKeyword hk)
  have hlen := length_eq_of_lower_eq hv
  have hf : f ≤ text.length := by
    refine Nat.le_of_not_lt fun hlt => ?_
    rw [List.drop_eq_nil_of_le (Nat.le_of_lt hlt)] at hvu
    rw [(List.append_eq_nil_iff.mp hvu.symm).1] at hlen
    exact fromWord_ne_nil (List.length_eq_zero_iff.mp hlen.symm)
  obtain ⟨ms, hp, hms⟩ := Interval.cut_of_code hcode hf
  refine ⟨ms ++ v.map .code, ?_, by rw [textOf_append, List.length_append, textOf_map_code, hms, hlen]⟩
  rw [hp, ← List.drop_drop, hvu, ← hlen, List.drop_left, reads_word (isWord_of_lower_eq hv isWord_fromWord),
    List.append_assoc]

/-- The step takes away the opening parentheses of the run, each of which has a partner, and these partners. -/
structure TakesPartners (text : Text) (start : Nat) : Prop where
  closed : ∀ o, OpensRun text start o → ∃ close, findClosing text o = some close
  gone : ∀ p, (flagsAt text start)[p]? = some false ↔ ∃ o, OpensRun text start o ∧ (p = o ∨ findClosing text o = some p)

/-- The regions of a well-formed text are neutral. -/
theorem neutral_of_wellFormed (h : WellFormed text) : ∀ kind t, .region kind t ∈ pieces text → Neutral t := by
  intro kind t ht
  cases kind with
  | literal => exact neutral_of_literal ht
  | comment => exact absurd ht (h.comment t)

/-- What a step takes away of a balanced text with neutral regions: the parentheses of the run and their partners. -/
theorem flagsAt_pairs {front : List Piece} (hp : pieces text = front ++ pieces (text.drop start))
    (hstart : (textOf front).length = start) (hn : nest [] (pieces text) = some [])
    (hr : ∀ kind t, .region kind t ∈ pieces text → Neutral t)
    (hlong : threshold < (openingRun (text.drop start)).count '(') : TakesPartners text start := by
  obtain ⟨run, behind, htext, hrun, hbehind, hclass⟩ := openingRun_split (text.drop start)
  have hrest : pieces (text.drop start) = run.map .code ++ pieces behind := by
    rw [← htext]
    exact reads_run hclass behind
  rw [hp] at hn hr
  obtain ⟨s, -, hs⟩ := nest_prefix hn
  rw [hrest, nest_run hclass] at hs
  rw [hrest] at hr hp
  have hr' : ∀ kind t, .region kind t ∈ pieces behind → Neutral t := fun kind t ht => hr kind t (by simp [ht])
  have hp' : pieces text = front ++ (run.map .code ++ ([] ++ pieces behind)) := hp
  have hpaired := closerFlags_pairs hp' hclass rfl hs hr' rfl
  have hcount := count_closerFlags_of_nest hs hr'
  rw [textOf_pieces] at hpaired hcount
  rw [(closerFlags_spec ..).2.2.2] at hcount
  rw [textOf_nil, List.length_nil, Nat.add_zero, hstart] at hpaired
  have hflags : flagsAt text start =
      List.replicate start true ++ (openerFlags 0 run ++ closerFlags (run.count '(') 0 behind) := by
    have hlen : (text.take start).length = start := by rw [take_of_pieces hp hstart, hstart]
    unfold flagsAt unnestFlags
    simp only
    rw [hrun] at hlong ⊢
    rw [hbehind, if_neg (Nat.not_le.mpr hlong), hcount, Nat.sub_self, hlen]
  have hlen := (openerFlags_spec 0 run).1
  refine ⟨fun o ho => ?_, fun p => ?_⟩
  · obtain ⟨i, hi, rfl⟩ := (opensRun_iff hrun).mp ho
    obtain ⟨j, hj⟩ := hpaired.closed i hi
    exact ⟨_, hj⟩
  · rw [hflags, flag_behind]
    simp only [flag_append, hlen, openerFlags_zero_iff, hpaired.gone]
    constructor
    · rintro ⟨q, rfl, hq | ⟨j, rfl, i, hi, hfind⟩⟩
      · exact ⟨start + q, (opensRun_iff hrun).mpr ⟨q, hq, rfl⟩, .inl rfl⟩
      · exact ⟨start + i, (opensRun_iff hrun).mpr ⟨i, hi, rfl⟩, .inr (by rw [hfind, Nat.add_assoc])⟩
    · rintro ⟨o, ho, hpo⟩
      obtain ⟨i, hi, rfl⟩ := (opensRun_iff hrun).mp ho
      rcases hpo with rfl | hfind
      · exact ⟨i, rfl, .inl hi⟩
      · obtain ⟨j, hj⟩ := hpaired.closed i hi
        have hp : p = start + (run.length + j) := by
          rw [hfind, Option.some.injEq] at hj
          omega
        exact ⟨run.length + j, hp, .inr ⟨j, rfl, i, hi, hj⟩⟩

/-- **A step takes away partners** behind a FROM of a well-formed text. -/
theorem takesPartners {f : Nat} (h : WellFormed text) (hf : BehindFrom text f start) : TakesPartners text start := by
  obtain ⟨front, hp, hstart⟩ := hf.cut
  exact flagsAt_pairs hp hstart h.nest (neutral_of_wellFormed h) hf.long

/-! ## What is left -/

variable {f : Nat}

/-- Of the pieces of a well-formed text, a step leaves some in which the brackets match. -/
theorem removes_unnestAt (h : WellFormed text) (hf : BehindFrom text f start) :
    ∃ qs, Removes (fun _ => True) none (pieces text) (flagsAt text start) qs ∧ textOf qs = unnestAt text start ∧
      nest [] qs = some [] := by
  obtain ⟨front, hp, hstart⟩ := hf.cut
  have hn := h.nest
  rw [hp] at hn
  obtain ⟨s, hs, hrest⟩ := nest_prefix hn
  have hneutral : ∀ kind t, .region kind t ∈ pieces (text.drop start) → Neutral t := fun kind t ht =>
    neutral_of_wellFormed h kind t (by rw [hp]; exact List.mem_append_right _ ht)
  have hstep : ∃ ks, Removes (fun _ => True) (codeBehind none front) (pieces (text.drop start))
      (unnestFlags (text.drop start)) ks ∧ nest s ks = some [] :=
    removes_unnest hrest hneutral (fun _ _ => trivial) trivial fun _ _ _ => trivial
  obtain ⟨ks, hks, hnest⟩ := hstep
  have hall := hks.behind front
  rw [← hp, ← take_of_pieces hp hstart] at hall
  have hselect := hall.select_eq
  rw [textOf_pieces] at hselect
  exact ⟨front ++ ks, hall, hselect.symm.trans (flagsAt_spec text start).2.1,
    by rw [nest_append, hs, Option.bind_some, hnest]⟩

/-- **When a step leaves a well-formed text**: exactly if no comment is opened where a parenthesis has gone. -/
theorem wellFormed_unnestAt_iff (h : WellFormed text) (hf : BehindFrom text f start) :
    WellFormed (unnestAt text start) ↔ ∀ t, .region .comment t ∉ pieces (unnestAt text start) := by
  refine ⟨fun hleft => hleft.comment, fun hc => ⟨hc, ?_⟩⟩
  obtain ⟨qs, hqs, htext, hnest⟩ := removes_unnestAt h hf
  rw [← htext] at hc ⊢
  rwa [pieces_of_no_comment (fun p hm => h.isCodeOrLiteral p (hqs.subset p hm)) hc]

/-- No parenthesis that goes stands directly behind a dash or a slash. -/
def GoesFirm (text : Text) (start : Nat) : Prop :=
  ∀ p < text.length, (flagsAt text start)[p + 1]? = some false → text[p]? ≠ some '-' ∧ text[p]? ≠ some '/'

instance (text : Text) (start : Nat) : Decidable (GoesFirm text start) := inferInstanceAs (Decidable (∀ p < _, _))

/-- What stands in front of the parentheses that go is firm. -/
theorem GoesFirm.firm (h : GoesFirm text start) {ms ns : List Piece} {c : Char} (hp : pieces text = ms ++ .code c :: ns)
    (hgone : (flagsAt text start)[(textOf ms).length]? = some false) : Firm (codeBehind none ms) := by
  induction ms using List.reverseRecOn with
  | nil => exact ⟨by simp [codeBehind], by simp [codeBehind]⟩
  | append_singleton ms p _ =>
    rw [codeBehind_append]
    cases p with
    | region kind t => exact ⟨by simp [codeBehind, codeOf?], by simp [codeBehind, codeOf?]⟩
    | code d =>
      rw [List.append_assoc, List.singleton_append] at hp
      rw [textOf_append, List.length_append] at hgone
      have hd := (Interval.code_at hp rfl).1
      have hfirm := h _ (List.getElem?_eq_some_iff.mp hd).1 hgone
      rwa [hd] at hfirm

/-- Where the parentheses that go stand firm, a step leaves a well-formed text. -/
theorem wellFormed_unnestAt_of_firm (h : WellFormed text) (hf : BehindFrom text f start) (hfirm : GoesFirm text start) :
    WellFormed (unnestAt text start) := by
  obtain ⟨qs, hqs, htext, hnest⟩ := removes_unnestAt h hf
  have hread : pieces (unnestAt text start) = qs := by
    rw [← htext]
    exact (hqs.imp fun ms c ns hms hgone => hfirm.firm hms hgone).pieces_eq (by rw [textOf_pieces])
      fun c hc => isQuote_of_nest h.nest hc
  exact ⟨fun t ht => h.comment t (hqs.subset _ (hread ▸ ht)), by rw [hread, hnest]⟩

/-- The dashes around a parenthesis that goes open a comment, which takes in the partner of the first bracket. -/
theorem unnestAt_opens_comment :
    let text := "(select * from (((((((((((a -)- b)))))))))))".toList
    let out := unnestAt text 14
    WellFormed text ∧ BehindFrom text 10 14 ∧ out = "(select * from a -- b)".toList ∧ nest [] (pieces out) ≠ some [] ∧
      out[0]? = some '(' ∧ findClosing out 0 = none := by
  decide +kernel

/-- **A step takes away matched pairs.** At any position of any text, what goes are opening parentheses of the run there
and as many closing ones. Behind a FROM in the code of a well-formed text, a run that is too long goes with the partners
of its parentheses and nothing else does; what is left is well-formed again unless a comment is opened in it, which no
parenthesis does that stands firm. -/
theorem unnest_pairs (text : Text) (start : Nat) :
    TakesParentheses text start ∧
      ∀ f, WellFormed text → BehindFrom text f start →
        TakesPartners text start ∧
        (WellFormed (unnestAt text start) ↔ ∀ t, .region .comment t ∉ pieces (unnestAt text start)) ∧
        (GoesFirm text start → WellFormed (unnestAt text start)) :=
  ⟨takesParentheses text start, fun _ h hf =>
    ⟨takesPartners h hf, wellFormed_unnestAt_iff h hf, wellFormed_unnestAt_of_firm h hf⟩⟩

/-- Three joins in eleven parentheses, with a call and a literal among them: the innermost parenthesis goes with the
first one that closes none behind it. -/
theorem unnest_pairs_joins :
    let text := "select * from (((((((((((a join f(')')) join b) join c)))))))))".toList
    let out := "select * from a join f(')') join b join c".toList
    WellFormed text ∧ BehindFrom text 9 13 ∧ unnestAt text 13 = out ∧
      OpensRun text 13 24 ∧ findClosing text 24 = some 38 ∧ (flagsAt text 13)[38]? = some false ∧ GoesFirm text 13 ∧
      WellFormed out ∧ ∀ t, .region .comment t ∉ pieces out := by
  intro text out
  have hwell : WellFormed text := by decide +kernel
  have hfrom : BehindFrom text 9 13 := by decide +kernel
  have hout : unnestAt text 13 = out := by decide +kernel
  have hpair : OpensRun text 13 24 ∧ findClosing text 24 = some 38 := by decide +kernel
  have hfirm : GoesFirm text 13 := by decide +kernel
  obtain ⟨hopens, hclose⟩ := hpair
  obtain ⟨hpartners, hcomment, hleft⟩ := (unnest_pairs text 13).2 9 hwell hfrom
  rw [hout] at hcomment hleft
  exact ⟨hwell, hfrom, hout, hopens, hclose, (hpartners.gone 38).mpr ⟨24, hopens, .inr hclose⟩, hfirm, hleft hfirm,
    hcomment.mp (hleft hfirm)⟩

end Position

end SqlDialect.View
