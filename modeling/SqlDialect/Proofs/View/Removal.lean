import SqlDialect.View.Nesting
import SqlDialect.Proofs.Bytes.View
import SqlDialect.Proofs.WellFormed

/-!
# Which parentheses are removed

Removing parentheses makes a text from another one by leaving characters out. Flags say which: one for every character,
true if it stays. The closing parentheses are sought by a reading of its own, which passes over literals but not over
comments, so a region is read as it should be if it is `Neutral`.

* `unnestFlags_spec`: the flags of a step leave what the step leaves, and take away as many parentheses of each kind.
* `flagsFrom_spec`: the flags of all steps, put together, leave what all steps leave.
* `closerFlags_of_settle`: in a text with partners for its quotes and parentheses nothing is taken away.
* `removes_unnest`: a step in a balanced text with neutral regions takes away code, and leaves balanced pieces.
-/

namespace SqlDialect.View

/-! ## Flags -/

section Flags

variable {α : Type} {fs gs : List Bool} {xs ys : List α}

/-- What is left of a list, where a flag says of each element whether it stays. -/
def select : List Bool → List α → List α
  | true :: fs, x :: xs => x :: select fs xs
  | false :: fs, _ :: xs => select fs xs
  | _, _ => []

theorem select_append (h : fs.length = xs.length) (gs : List Bool) (ys : List α) :
    select (fs ++ gs) (xs ++ ys) = select fs xs ++ select gs ys := by
  induction fs generalizing xs with
  | nil =>
    rw [List.length_nil] at h
    rw [List.length_eq_zero_iff.mp h.symm]
    cases gs <;> simp [select]
  | cons f fs ih =>
    obtain ⟨x, xs, rfl⟩ := List.exists_cons_of_length_eq_add_one h.symm
    have hrest := ih (Nat.succ.inj h)
    cases f <;> simp [select, hrest]

@[simp] theorem select_all (xs : List α) : select (List.replicate xs.length true) xs = xs := by
  induction xs with
  | nil => rfl
  | cons x xs ih => rw [List.length_cons, List.replicate_succ, select, ih]

@[simp] theorem select_none (xs : List α) : select (List.replicate xs.length false) xs = [] := by
  induction xs with
  | nil => rfl
  | cons x xs ih => rw [List.length_cons, List.replicate_succ, select, ih]

theorem select_sublist (fs : List Bool) (xs : List α) : (select fs xs).Sublist xs := by
  induction fs generalizing xs with
  | nil => exact List.nil_sublist xs
  | cons f fs ih =>
    cases xs with
    | nil => cases f <;> exact List.Sublist.refl []
    | cons x xs =>
      cases f with
      | false => exact (ih xs).cons x
      | true => exact (ih xs).cons_cons x

/-- The flags of one selection and then another one of what is left. -/
def merge : List Bool → List Bool → List Bool
  | [], _ => []
  | false :: fs, gs => false :: merge fs gs
  | true :: fs, gs => gs.headD true :: merge fs gs.tail

@[simp] theorem length_merge (fs gs : List Bool) : (merge fs gs).length = fs.length := by
  induction fs generalizing gs with
  | nil => rfl
  | cons f fs ih => cases f <;> simp [merge, ih]

theorem select_merge (hf : fs.length = xs.length) (hg : gs.length = (select fs xs).length) :
    select (merge fs gs) xs = select gs (select fs xs) := by
  induction fs generalizing xs gs with
  | nil => cases gs <;> simp [merge, select] at hg ⊢
  | cons f fs ih =>
    obtain ⟨x, xs, rfl⟩ := List.exists_cons_of_length_eq_add_one hf.symm
    cases f with
    | false => exact ih (Nat.succ.inj hf) hg
    | true =>
      obtain ⟨g, gs, rfl⟩ := List.exists_cons_of_length_eq_add_one (by simpa [select] using hg)
      have hrest : select (merge fs gs) xs = select gs (select fs xs) :=
        ih (Nat.succ.inj hf) (by simpa [select] using hg)
      cases g <;> simp [merge, select, hrest]

theorem merge_stay (k : Nat) (fs gs : List Bool) :
    merge (List.replicate k true ++ fs) (List.replicate k true ++ gs) = List.replicate k true ++ merge fs gs := by
  induction k with
  | zero => rfl
  | succ k ih => simp only [List.replicate_succ, List.cons_append, merge, List.headD_cons, List.tail_cons, ih]

theorem flag_append {i : Nat} : (fs ++ gs)[i]? = some false ↔
    fs[i]? = some false ∨ ∃ j, i = fs.length + j ∧ gs[j]? = some false := by
  rcases Nat.lt_or_ge i fs.length with hi | hi
  · rw [List.getElem?_append_left hi]
    refine ⟨.inl, ?_⟩
    rintro (h | ⟨j, rfl, -⟩)
    · exact h
    · exact absurd hi (Nat.not_lt.mpr (Nat.le_add_right _ _))
  · rw [List.getElem?_append_right hi]
    constructor
    · exact fun h => .inr ⟨i - fs.length, (Nat.add_sub_cancel' hi).symm, h⟩
    · rintro (h | ⟨j, rfl, h⟩)
      · exact absurd (List.getElem?_eq_some_iff.mp h).1 (Nat.not_lt.mpr hi)
      · rwa [Nat.add_sub_cancel_left]

/-- Behind what stays. -/
theorem flag_behind {m i : Nat} :
    (List.replicate m true ++ fs)[i]? = some false ↔ ∃ j, i = m + j ∧ fs[j]? = some false := by
  have hstay : (List.replicate m true)[i]? ≠ some false := fun h => by
    cases List.eq_of_mem_replicate (List.mem_of_getElem? h)
  rw [flag_append, or_iff_right hstay, List.length_replicate]

/-- What the first of two selections takes away stays away. -/
theorem merge_false {i : Nat} (h : fs[i]? = some false) : (merge fs gs)[i]? = some false := by
  induction fs generalizing gs i with
  | nil => cases h
  | cons f fs ih =>
    cases i with
    | zero =>
      rw [List.getElem?_cons_zero, Option.some.injEq] at h
      subst h
      rfl
    | succ i =>
      rw [List.getElem?_cons_succ] at h
      cases f <;> simpa [merge] using ih h

end Flags

/-! ## A step -/

/-- The depth behind a character of code. -/
def depthBehind (depth : Nat) (c : Char) : Nat := if c = '(' then depth + 1 else if c = ')' then depth - 1 else depth

/-- For every character of a text whether `dropClosers` lets it stay. -/
def closerFlags (limit depth : Nat) (text : Text) : List Bool :=
  match text with
  | [] => []
  | c :: rest =>
    if limit = 0 then List.replicate (c :: rest).length true
    else
      match literalTail? c rest with
      | some n => List.replicate (c :: rest.take n).length true ++ closerFlags limit depth (rest.drop n)
      | none =>
        if c = ')' ∧ depth = 0 then false :: closerFlags (limit - 1) depth rest
        else true :: closerFlags limit (depthBehind depth c) rest
termination_by text.length
decreasing_by all_goals simp only [List.length_drop, List.length_cons]; omega

/-- For every character of a run whether `keepOpeners` lets it stay. -/
def openerFlags : Nat → Text → List Bool
  | _, [] => []
  | 0, '(' :: rest => false :: openerFlags 0 rest
  | n + 1, '(' :: rest => true :: openerFlags n rest
  | n, _ :: rest => true :: openerFlags n rest

/-- For every character of a text whether `unnest` lets it stay. -/
def unnestFlags (text : Text) : List Bool :=
  let run := openingRun text
  let openers := run.count '('
  if openers ≤ threshold then List.replicate text.length true
  else
    let behind := text.drop run.length
    openerFlags (openers - (dropClosers openers 0 behind).2) run ++ closerFlags openers 0 behind

section Step

variable {text run rest : Text} {limit depth n : Nat} {c : Char}

theorem le_of_literalTail? (h : literalTail? c rest = some n) : n ≤ rest.length := by
  have hregion : regionTail? c rest = some (.literal, n) := by rw [regionTail?, h]
  exact lt_of_regionTail? hregion

theorem dropClosers_zero (depth : Nat) (text : Text) : dropClosers 0 depth text = (text, 0) := by
  rw [dropClosers.eq_def]
  cases text <;> rfl

theorem dropClosers_literal (hl : limit ≠ 0) (hn : literalTail? c rest = some n) (depth : Nat) :
    dropClosers limit depth (c :: rest) = (c :: rest.take n ++ (dropClosers limit depth (rest.drop n)).1,
      (dropClosers limit depth (rest.drop n)).2) := by
  rw [dropClosers, if_neg hl, hn]

theorem dropClosers_closer (hl : limit ≠ 0) (rest : Text) :
    dropClosers limit 0 (')' :: rest) =
      ((dropClosers (limit - 1) 0 rest).1, (dropClosers (limit - 1) 0 rest).2 + 1) := by
  rw [dropClosers, if_neg hl]
  rfl

theorem dropClosers_code (hl : limit ≠ 0) (hn : literalTail? c rest = none) (hc : ¬ (c = ')' ∧ depth = 0)) :
    dropClosers limit depth (c :: rest) =
      (c :: (dropClosers limit (depthBehind depth c) rest).1, (dropClosers limit (depthBehind depth c) rest).2) := by
  rw [dropClosers, if_neg hl, hn]
  simp only [if_neg hc]
  rfl

theorem closerFlags_zero (depth : Nat) (text : Text) : closerFlags 0 depth text = List.replicate text.length true := by
  rw [closerFlags.eq_def]
  cases text <;> rfl

theorem closerFlags_literal (hl : limit ≠ 0) (hn : literalTail? c rest = some n) (depth : Nat) :
    closerFlags limit depth (c :: rest) =
      List.replicate (c :: rest.take n).length true ++ closerFlags limit depth (rest.drop n) := by
  rw [closerFlags, if_neg hl, hn]

theorem closerFlags_closer (hl : limit ≠ 0) (rest : Text) :
    closerFlags limit 0 (')' :: rest) = false :: closerFlags (limit - 1) 0 rest := by
  rw [closerFlags, if_neg hl]
  rfl

theorem closerFlags_code (hl : limit ≠ 0) (hn : literalTail? c rest = none) (hc : ¬ (c = ')' ∧ depth = 0)) :
    closerFlags limit depth (c :: rest) = true :: closerFlags limit (depthBehind depth c) rest := by
  rw [closerFlags, if_neg hl, hn]
  simp only [if_neg hc]

/-- The flags of the closing parentheses: they leave what `dropClosers` leaves, and take away as many closing
parentheses as it counts. -/
theorem closerFlags_spec (limit depth : Nat) (text : Text) :
    (closerFlags limit depth text).length = text.length ∧
      select (closerFlags limit depth text) text = (dropClosers limit depth text).1 ∧
      select ((closerFlags limit depth text).map not) text = List.replicate (dropClosers limit depth text).2 ')' ∧
      (closerFlags limit depth text).count false = (dropClosers limit depth text).2 := by
  fun_induction closerFlags limit depth text with
  | case1 => simp [dropClosers, select]
  | case2 depth c rest =>
    rw [dropClosers_zero, List.map_replicate]
    exact ⟨List.length_replicate, select_all _, select_none _, by simp [List.count_replicate]⟩
  | case3 limit depth c rest hl n hn ih =>
    obtain ⟨hlen, hkept, hdropped, hcount⟩ := ih
    have hsplit : c :: rest = (c :: rest.take n) ++ rest.drop n := by simp
    rw [dropClosers_literal hl hn]
    refine ⟨?_, ?_, ?_, ?_⟩
    · conv => rhs; rw [hsplit]
      rw [List.length_append, List.length_append, hlen, List.length_replicate]
    · conv => lhs; rw [hsplit]
      rw [select_append List.length_replicate, select_all, hkept]
    · conv => lhs; rw [hsplit]
      rw [List.map_append, List.map_replicate, select_append List.length_replicate, Bool.not_true, select_none,
        hdropped]
      rfl
    · rw [List.count_append, hcount, List.count_replicate]
      exact Nat.zero_add _
  | case4 limit depth c rest hl hn hc ih =>
    obtain ⟨rfl, rfl⟩ := hc
    obtain ⟨hlen, hkept, hdropped, hcount⟩ := ih
    rw [dropClosers_closer hl]
    refine ⟨by rw [List.length_cons, hlen, List.length_cons], hkept, ?_, by rw [List.count_cons_self, hcount]⟩
    rw [List.map_cons, Bool.not_false, select, hdropped, ← List.replicate_succ]
  | case5 limit depth c rest hl hn hc ih =>
    obtain ⟨hlen, hkept, hdropped, hcount⟩ := ih
    rw [dropClosers_code hl hn hc]
    exact ⟨by rw [List.length_cons, hlen, List.length_cons], by rw [select, hkept], hdropped,
      by rw [List.count_cons_of_ne (by decide), hcount]⟩

/-- The flags of the opening parentheses: they leave what `keepOpeners` leaves, and take away the opening parentheses
behind the first `n`. -/
theorem openerFlags_spec (n : Nat) (run : Text) :
    (openerFlags n run).length = run.length ∧ select (openerFlags n run) run = keepOpeners n run ∧
      select ((openerFlags n run).map not) run = List.replicate (run.count '(' - n) '(' := by
  fun_induction openerFlags n run with
  | case1 => simp [keepOpeners, select]
  | case2 rest ih =>
    obtain ⟨hlen, hkept, hdropped⟩ := ih
    refine ⟨by rw [List.length_cons, hlen, List.length_cons], hkept, ?_⟩
    rw [List.map_cons, Bool.not_false, select, hdropped, List.count_cons_self, ← List.replicate_succ]
    rfl
  | case3 n rest ih =>
    obtain ⟨hlen, hkept, hdropped⟩ := ih
    refine ⟨by rw [List.length_cons, hlen, List.length_cons], by rw [select, hkept]; rfl, ?_⟩
    rw [List.map_cons, Bool.not_true, select, hdropped, List.count_cons_self, Nat.add_sub_add_right]
  | case4 n c rest h h' ih =>
    obtain ⟨hlen, hkept, hdropped⟩ := ih
    have hc : c ≠ '(' := by
      rintro rfl
      cases n with
      | zero => exact h rfl rfl
      | succ n => exact h' n rfl rfl
    refine ⟨by rw [List.length_cons, hlen, List.length_cons], ?_, ?_⟩
    · rw [select, hkept, Bytes.keepOpeners_cons hc]
    · rw [List.map_cons, Bool.not_true, select, hdropped, List.count_cons_of_ne hc]

/-- The run of a text and what stands behind it. -/
theorem openingRun_split (text : Text) :
    ∃ run behind, run ++ behind = text ∧ openingRun text = run ∧ text.drop run.length = behind ∧
      ∀ c ∈ run, c = '(' ∨ isBlank c = true := by
  have h := List.takeWhile_append_dropWhile (p := fun c => c = '(' || isBlank c) (l := text)
  refine ⟨openingRun text, text.dropWhile fun c => c = '(' || isBlank c, h, rfl, ?_, fun c hc => ?_⟩
  · conv => lhs; arg 2; rw [← h]
    exact List.drop_left
  · have hrun := List.all_eq_true.mp List.all_takeWhile c hc
    simpa using hrun

/-- The flags of a step: they leave what `unnest` leaves, and take away opening parentheses of the run and as many
closing ones. -/
theorem unnestFlags_spec (text : Text) :
    (unnestFlags text).length = text.length ∧ select (unnestFlags text) text = (unnest text).1 ∧
      ∃ k, select ((unnestFlags text).map not) text = List.replicate k '(' ++ List.replicate k ')' := by
  obtain ⟨run, behind, htext, hrun, hbehind, -⟩ := openingRun_split text
  unfold unnestFlags unnest
  simp only
  rw [hrun, hbehind]
  split
  · refine ⟨List.length_replicate, select_all _, 0, ?_⟩
    rw [List.map_replicate]
    exact select_none _
  · have hle := Bytes.dropClosers_le (run.count '(') 0 behind
    obtain ⟨hlen', hkept', hdropped', -⟩ := closerFlags_spec (run.count '(') 0 behind
    generalize hk : (dropClosers (run.count '(') 0 behind).2 = k at hle hdropped'
    obtain ⟨hlen, hkept, hdropped⟩ := openerFlags_spec (run.count '(' - k) run
    rw [← htext]
    refine ⟨?_, ?_, k, ?_⟩
    · rw [List.length_append, List.length_append, hlen, hlen']
    · rw [select_append hlen, hkept, hkept']
    · rw [List.map_append, select_append (by rw [List.length_map, hlen]), hdropped, hdropped', Nat.sub_sub_self hle]

end Step

/-! ## All steps -/

theorem fromWord_eq : fromWord = ['f', 'r', 'o', 'm'] := by decide +kernel

theorem fromWord_ne_nil : fromWord ≠ [] := fromWord_eq ▸ List.cons_ne_nil _ _

theorem isWord_fromWord : ∀ c ∈ fromWord, isWord c = true := by
  rw [fromWord_eq]
  decide

/-- For every character of a text whether `unnestFrom` lets it stay. -/
def flagsFrom (before : Option Char) (text : Text) : List Bool :=
  match _h : findKeyword fromWord before text with
  | none => List.replicate text.length true
  | some n =>
    let stop := n + fromWord.length
    let rest := text.drop stop
    List.replicate (text.take stop).length true ++
      merge (unnestFlags rest) (flagsFrom fromWord.getLast? (unnest rest).1)
termination_by text.length
decreasing_by
  have h1 := findKeyword_add_le _h
  have h2 := List.length_pos_iff.mpr fromWord_ne_nil
  have h3 := unnest_length_le (text.drop (n + fromWord.length))
  rw [List.length_drop] at h3
  omega

/-- For every character of a definition whether it stays when the redundant parentheses are removed. -/
def removalFlags (definition : Text) : List Bool := flagsFrom none definition

theorem flagsFrom_of_none {before : Option Char} {text : Text} (h : findKeyword fromWord before text = none) :
    flagsFrom before text = List.replicate text.length true ∧ (unnestFrom before text).1 = text := by
  constructor
  · rw [flagsFrom]
    split
    · rfl
    · next hk => rw [h] at hk; cases hk
  · rw [unnestFrom]
    split
    · rfl
    · next hk => rw [h] at hk; cases hk

theorem flagsFrom_of_some {before : Option Char} {text rest : Text} {n stop : Nat}
    (h : findKeyword fromWord before text = some n) (hstop : n + fromWord.length = stop)
    (hrest : text.drop stop = rest) :
    flagsFrom before text = List.replicate (text.take stop).length true ++
        merge (unnestFlags rest) (flagsFrom fromWord.getLast? (unnest rest).1) ∧
      (unnestFrom before text).1 = text.take stop ++ (unnestFrom fromWord.getLast? (unnest rest).1).1 := by
  subst hstop hrest
  constructor
  · rw [flagsFrom]
    split
    · next hk => rw [h] at hk; cases hk
    · next m hk =>
      rw [h, Option.some.injEq] at hk
      subst hk
      rfl
  · rw [unnestFrom]
    split
    · next hk => rw [h] at hk; cases hk
    · next m hk =>
      rw [h, Option.some.injEq] at hk
      subst hk
      rfl

/-- The flags of all steps leave what all steps leave. -/
theorem flagsFrom_spec (before : Option Char) (text : Text) :
    (flagsFrom before text).length = text.length ∧
      select (flagsFrom before text) text = (unnestFrom before text).1 := by
  fun_induction flagsFrom before text with
  | case1 before text h =>
    rw [(flagsFrom_of_none h).2]
    exact ⟨List.length_replicate, select_all text⟩
  | case2 before text n h stop rest ih =>
    obtain ⟨hlen, hkept, -⟩ := unnestFlags_spec rest
    obtain ⟨hlen', hkept'⟩ := ih
    have htext : text.take stop ++ rest = text := List.take_append_drop stop text
    rw [(flagsFrom_of_some h rfl rfl).2]
    constructor
    · rw [List.length_append, length_merge, hlen, List.length_replicate, ← List.length_append, htext]
    · conv => lhs; arg 2; rw [← htext]
      rw [select_append List.length_replicate, select_all, select_merge hlen (by rw [hkept, hlen']), hkept, hkept']

/-! ## Reading without comments -/

/-- The depth behind a text that the removal reads by itself, or nothing if a parenthesis is closed there that is not
open, or a quote has no partner. -/
def settle (depth : Nat) (text : Text) : Option Nat :=
  match text with
  | [] => some depth
  | c :: rest =>
    match literalTail? c rest with
    | some n => settle depth (rest.drop n)
    | none =>
      if isQuote c ∨ (c = ')' ∧ depth = 0) then none else settle (depthBehind depth c) rest
termination_by text.length
decreasing_by all_goals simp only [List.length_drop, List.length_cons]; omega

/-- A text in which every quote has a partner and every parenthesis too, if it is read without comments. -/
def Neutral (t : Text) : Prop := settle 0 t = some 0

instance (t : Text) : Decidable (Neutral t) := inferInstanceAs (Decidable (_ = _))

section Settle

variable {t rest : Text} {limit depth depth' n : Nat} {c : Char}

theorem settle_literal (hn : literalTail? c rest = some n) (depth : Nat) :
    settle depth (c :: rest) = settle depth (rest.drop n) := by
  rw [settle, hn]

theorem settle_code (hn : literalTail? c rest = none) (hc : ¬ (isQuote c = true ∨ (c = ')' ∧ depth = 0))) :
    settle depth (c :: rest) = settle (depthBehind depth c) rest := by
  rw [settle, hn]
  simp only [if_neg hc]

/-- A literal of a part is a literal of the whole. -/
theorem literalTail?_whole (hn : literalTail? c rest = some n) (r : Text) : literalTail? c (rest ++ r) = some n :=
  literalTail?_append (r := []) (by rwa [List.append_nil]) (le_of_literalTail? hn) r

theorem settle_append (h : settle depth t = some depth') (r : Text) : settle depth (t ++ r) = settle depth' r := by
  fun_induction settle depth t with
  | case1 => cases h; rfl
  | case2 depth c rest n hn ih =>
    rw [List.cons_append, settle_literal (literalTail?_whole hn r),
      List.drop_append_of_le_length (le_of_literalTail? hn), ih h]
  | case3 => cases h
  | case4 depth c rest hn hc ih =>
    have hquote : isQuote c = false := Bool.eq_false_iff.mpr fun hq => hc (.inl hq)
    rw [List.cons_append, settle_code (literalTail?_of_code hquote _) hc, ih h]

/-- Further parentheses may be open on the outside. -/
theorem settle_frame (h : settle depth t = some depth') (k : Nat) : settle (depth + k) t = some (depth' + k) := by
  fun_induction settle depth t with
  | case1 => cases h; rw [settle]
  | case2 depth c rest n hn ih => rw [settle_literal hn, ih h]
  | case3 => cases h
  | case4 depth c rest hn hc ih =>
    have hdepth : depthBehind (depth + k) c = depthBehind depth c + k := by
      unfold depthBehind
      split
      · omega
      · split
        · next hclose =>
          have : depth ≠ 0 := fun h0 => hc (.inr ⟨hclose, h0⟩)
          omega
        · rfl
    rw [settle_code hn fun hc' => hc (hc'.imp_right fun h => ⟨h.1, by omega⟩), hdepth, ih h]

/-- A neutral text leaves the depth as it is. -/
theorem Neutral.settle_append (h : Neutral t) (depth : Nat) (r : Text) : settle depth (t ++ r) = settle depth r := by
  have hframe := settle_frame h depth
  rw [Nat.zero_add] at hframe
  exact View.settle_append hframe r

/-- No closing parenthesis is taken away from a text that the removal reads by itself. -/
theorem closerFlags_of_settle (h : settle depth t = some depth') (hl : limit ≠ 0) (r : Text) :
    closerFlags limit depth (t ++ r) = List.replicate t.length true ++ closerFlags limit depth' r := by
  fun_induction settle depth t with
  | case1 => cases h; rfl
  | case2 depth c rest n hn ih =>
    have hle := le_of_literalTail? hn
    rw [List.cons_append, closerFlags_literal hl (literalTail?_whole hn r), List.take_append_of_le_length hle,
      List.drop_append_of_le_length hle, ih h, ← List.append_assoc, List.replicate_append_replicate]
    congr 2
    simp only [List.length_cons, List.length_take, List.length_drop]
    omega
  | case3 => cases h
  | case4 depth c rest hn hc ih =>
    have hquote : isQuote c = false := Bool.eq_false_iff.mpr fun hq => hc (.inl hq)
    rw [List.cons_append, closerFlags_code hl (literalTail?_of_code hquote _) fun hc' => hc (.inr hc'), ih h]
    rfl

/-- A literal is one in front of any text. -/
theorem literalTail?_of_literal {text : Text} (h : .region .literal t ∈ pieces text) :
    ∃ q u, t = q :: u ∧ ∀ r, literalTail? q (u ++ r) = some u.length := by
  obtain ⟨q, x, hq, hx, rfl⟩ := quoted_of_literal h
  exact ⟨q, x ++ [q], rfl, fun r => literalTail?_eq_some_iff.mpr ⟨hq, x, r, by simp, hx, List.length_append⟩⟩

theorem neutral_of_literal {text : Text} (h : .region .literal t ∈ pieces text) : Neutral t := by
  obtain ⟨q, u, rfl, hu⟩ := literalTail?_of_literal h
  have hself := hu []
  rw [List.append_nil] at hself
  rw [Neutral, settle_literal hself, List.drop_length, settle]

/-- The parentheses among the open brackets are what the removal counts, over neutral regions. -/
theorem settle_of_nest {s s' : List Char} {ps : List Piece} (h : nest s ps = some s')
    (hr : ∀ kind t, .region kind t ∈ ps → Neutral t) :
    settle (s.count '(') (textOf ps) = some (s'.count '(') := by
  induction ps generalizing s with
  | nil =>
    cases h
    rw [textOf_nil, settle]
  | cons p ps ih =>
    have hr' : ∀ kind t, .region kind t ∈ ps → Neutral t := fun kind t ht => hr kind t (List.mem_cons_of_mem _ ht)
    obtain ⟨u, hstep, hrest⟩ := nest_cons_iff.mp h
    have hcode : ∀ c, p = .code c → ¬ (c = ')' ∧ s.count '(' = 0) ∧ depthBehind (s.count '(') c = u.count '(' →
        settle (s.count '(') (textOf (p :: ps)) = some (s'.count '(') := by
      rintro c rfl ⟨hc, hdepth⟩
      rw [textOf_cons, Piece.text, List.singleton_append, settle_code (literalTail?_of_code hstep.isQuote _)
        (by simpa [hstep.isQuote] using hc), hdepth]
      exact ih hrest hr'
    cases hstep with
    | region _ kind t => rw [textOf_cons, Piece.text, (hr kind t List.mem_cons_self).settle_append, ih hrest hr']
    | @opener _ c ho =>
      have hne : c ≠ ')' := by rintro rfl; cases ho
      refine hcode c rfl ⟨fun h => hne h.1, ?_⟩
      rw [depthBehind, if_neg hne, List.count_cons]
      simp only [beq_iff_eq]
      split <;> rfl
    | @closer _ o c hd =>
      have hne : c ≠ '(' := by rintro rfl; cases hd
      refine hcode c rfl ?_
      rw [depthBehind, if_neg hne, List.count_cons]
      by_cases hc : c = ')'
      · subst hc
        cases hd
        exact ⟨fun h => by simp at h, by simp⟩
      · have ho : o ≠ '(' := by rintro rfl; exact hc (eq_of_openerOf? hd)
        exact ⟨fun h => hc h.1, by simp [hc, ho]⟩
    | @plain _ c _ ho hcl =>
      have h1 : c ≠ '(' := by rintro rfl; cases ho
      have h2 : c ≠ ')' := by rintro rfl; cases hcl
      exact hcode c rfl ⟨fun h => h2 h.1, by rw [depthBehind, if_neg h1, if_neg h2]⟩

end Settle

/-! ## Pieces without some of their parentheses -/

/-- The character of a piece of code. -/
def codeOf? : Piece → Option Char
  | .code c => some c
  | .region _ _ => none

/-- The character directly in front of what follows some pieces, if it is code; `before` is the one in front of them. -/
def codeBehind : Option Char → List Piece → Option Char
  | before, [] => before
  | _, p :: ps => codeBehind (codeOf? p) ps

@[simp] theorem codeBehind_append (before : Option Char) (ps qs : List Piece) :
    codeBehind before (ps ++ qs) = codeBehind (codeBehind before ps) qs := by
  induction ps generalizing before with
  | nil => rfl
  | cons p ps ih => exact ih _

/-- Pieces that lose some of their parentheses: the flags say which characters stay, and what stands directly in front
of a parenthesis that goes has the property `P`. -/
inductive Removes (P : Option Char → Prop) : Option Char → List Piece → List Bool → List Piece → Prop where
  | nil (before : Option Char) : Removes P before [] [] []
  | keep {before : Option Char} {ps qs : List Piece} {fs : List Bool} (p : Piece)
      (h : Removes P (codeOf? p) ps fs qs) :
      Removes P before (p :: ps) (List.replicate p.text.length true ++ fs) (p :: qs)
  | drop {before : Option Char} {ps qs : List Piece} {fs : List Bool} {c : Char} (hc : c = '(' ∨ c = ')')
      (hb : P before) (h : Removes P (some c) ps fs qs) : Removes P before (.code c :: ps) (false :: fs) qs

namespace Removes

variable {P : Option Char → Prop} {before : Option Char} {ps ps' qs qs' : List Piece} {fs fs' : List Bool}

theorem refl (P : Option Char → Prop) (before : Option Char) (ps : List Piece) :
    Removes P before ps (List.replicate (textOf ps).length true) ps := by
  induction ps generalizing before with
  | nil => exact .nil before
  | cons p ps ih =>
    rw [textOf_cons, List.length_append, ← List.replicate_append_replicate]
    exact .keep p (ih (codeOf? p))

theorem append (h : Removes P before ps fs qs) (h' : Removes P (codeBehind before ps) ps' fs' qs') :
    Removes P before (ps ++ ps') (fs ++ fs') (qs ++ qs') := by
  induction h with
  | nil => exact h'
  | keep p _ ih =>
    rw [List.append_assoc]
    exact .keep p (ih h')
  | drop hc hb _ ih => exact .drop hc hb (ih h')

/-- Pieces in front stay. -/
theorem behind (ms : List Piece) (h : Removes P (codeBehind before ms) ps fs qs) :
    Removes P before (ms ++ ps) (List.replicate (textOf ms).length true ++ fs) (ms ++ qs) :=
  (refl P before ms).append h

theorem length_eq (h : Removes P before ps fs qs) : fs.length = (textOf ps).length := by
  induction h with
  | nil => rfl
  | keep p _ ih => rw [textOf_cons, List.length_append, List.length_append, List.length_replicate, ih]
  | drop _ _ _ ih => rw [List.length_cons, ih]; rfl

/-- The characters that stay are those of the pieces that stay. -/
theorem select_eq (h : Removes P before ps fs qs) : select fs (textOf ps) = textOf qs := by
  induction h with
  | nil => rfl
  | keep p _ ih => rw [textOf_cons, select_append List.length_replicate, select_all, ih, textOf_cons]
  | drop _ _ _ ih => exact ih

theorem subset (h : Removes P before ps fs qs) : ∀ p ∈ qs, p ∈ ps := by
  induction h with
  | nil => exact fun p hp => hp
  | keep p _ ih =>
    intro q hq
    exact (List.mem_cons.mp hq).elim (fun he => he ▸ List.mem_cons_self) fun hm => List.mem_cons_of_mem _ (ih q hm)
  | drop _ _ _ ih => exact fun q hq => List.mem_cons_of_mem _ (ih q hq)

/-- What stands in front of the parentheses that go may have another property. -/
theorem imp {Q : Option Char → Prop} (h : Removes P before ps fs qs)
    (hQ : ∀ ms c ns, ps = ms ++ .code c :: ns → fs[(textOf ms).length]? = some false → Q (codeBehind before ms)) :
    Removes Q before ps fs qs := by
  induction h with
  | nil => exact .nil _
  | keep p _ ih =>
    refine .keep p (ih fun ms c ns he hf => hQ (p :: ms) c ns (by rw [he]; rfl) ?_)
    rw [textOf_cons, List.length_append]
    exact flag_behind.mpr ⟨_, rfl, hf⟩
  | @drop before ps qs fs d hd _ _ ih =>
    refine .drop hd (hQ [] d ps rfl rfl) (ih fun ms c ns he hf => hQ (.code d :: ms) c ns (by rw [he]; rfl) ?_)
    rw [textOf_cons, List.length_append, Nat.add_comm]
    exact hf

/-- What goes is a parenthesis of code. -/
theorem parenthesis (h : Removes P before ps fs qs) {i : Nat} (hi : fs[i]? = some false) :
    ∃ ms c ns, ps = ms ++ .code c :: ns ∧ (textOf ms).length = i ∧ (c = '(' ∨ c = ')') := by
  induction h generalizing i with
  | nil => cases hi
  | keep p _ ih =>
    obtain ⟨j, rfl, hj⟩ := flag_behind.mp hi
    obtain ⟨ms, c, ns, rfl, hms, hc⟩ := ih hj
    exact ⟨p :: ms, c, ns, rfl, by rw [textOf_cons, List.length_append, hms], hc⟩
  | @drop before ps qs fs c hc hb h ih =>
    cases i with
    | zero => exact ⟨[], c, ps, rfl, rfl, hc⟩
    | succ i =>
      obtain ⟨ms, d, ns, rfl, hms, hd⟩ := ih hi
      exact ⟨.code c :: ms, d, ns, rfl, by rw [textOf_cons, List.length_append, hms]; exact Nat.add_comm 1 i, hd⟩

end Removes

/-! ## The run and its closing parentheses -/

section Pairs

variable {P : Option Char → Prop} {before : Option Char} {s : List Char} {ps : List Piece} {run text : Text} {n : Nat}

/-- A run is code. -/
theorem reads_run (hrun : ∀ c ∈ run, c = '(' ∨ isBlank c = true) (r : Text) : Reads run r (run.map .code) := by
  induction run with
  | nil => exact Reads.nil r
  | cons c run ih =>
    have hrest := ih fun d hd => hrun d (List.mem_cons_of_mem _ hd)
    have hnone : regionTail? c (run ++ r) = none := by
      rcases hrun c List.mem_cons_self with rfl | hb
      · exact regionTail?_of_ne (by decide) (by decide) (by decide) (by decide) _
      · exact regionTail?_of_isBlank hb _
    rw [Reads, List.cons_append, pieces_code hnone, hrest]
    rfl

/-- A run opens its parentheses. -/
theorem nest_run (hrun : ∀ c ∈ run, c = '(' ∨ isBlank c = true) (s : List Char) (ps : List Piece) :
    nest s (run.map .code ++ ps) = nest (List.replicate (run.count '(') '(' ++ s) ps := by
  induction run generalizing s with
  | nil => rfl
  | cons c run ih =>
    have hrest := ih fun d hd => hrun d (List.mem_cons_of_mem _ hd)
    rcases hrun c List.mem_cons_self with rfl | hb
    · rw [List.map_cons, List.cons_append, nest_open rfl, hrest, List.count_cons_self, List.replicate_succ',
        List.append_assoc]
      rfl
    · have hne : c ≠ '(' := by rintro rfl; cases hb
      obtain ⟨hq, ho, hc⟩ := neutral_of_class (by decide) hb
      rw [List.map_cons, List.cons_append, nest_code hq ho hc, hrest, List.count_cons_of_ne hne]

/-- The parentheses of the run go. -/
theorem removes_run (hrun : ∀ c ∈ run, c = '(' ∨ isBlank c = true) (hP : ∀ c, c = '(' ∨ isBlank c = true → P (some c))
    (hb : P before) : ∃ qs, Removes P before (run.map .code) (openerFlags 0 run) qs ∧ ∀ s, nest s qs = some s := by
  induction run generalizing before with
  | nil => exact ⟨[], .nil before, fun s => rfl⟩
  | cons c run ih =>
    have hc := hrun c List.mem_cons_self
    obtain ⟨qs, hqs, hnest⟩ := ih (fun d hd => hrun d (List.mem_cons_of_mem _ hd)) (hP c hc)
    rcases hc with rfl | hblank
    · exact ⟨qs, .drop (.inl rfl) hb hqs, hnest⟩
    · have hne : c ≠ '(' := by rintro rfl; cases hblank
      obtain ⟨hq, ho, hc⟩ := neutral_of_class (by decide) hblank
      refine ⟨.code c :: qs, ?_, fun s => by rw [nest_code hq ho hc, hnest]⟩
      have hflags : openerFlags 0 (c :: run) = true :: openerFlags 0 run := by
        rw [openerFlags]
        · rintro - rfl
          exact hne rfl
        · rintro m h
          cases h
      rw [List.map_cons, hflags]
      exact .keep (.code c) hqs

/-- The closing parenthesis of the innermost bracket is the first one that goes. -/
theorem closerFlags_innermost {s' : List Char} (hn : nest ('(' :: s) ps = some s') (hl : s'.length ≤ s.length)
    (hr : ∀ kind t, .region kind t ∈ ps → Neutral t) :
    ∃ qs rs, ps = qs ++ .code ')' :: rs ∧ nest [] qs = some [] ∧ nest s rs = some s' ∧
      ∀ m, closerFlags (m + 1) 0 (textOf ps) =
        List.replicate (textOf qs).length true ++ false :: closerFlags m 0 (textOf rs) := by
  obtain ⟨qs, d, rs, rfl, hqs, hd, hrs⟩ := nest_close (s := []) hn hl
  obtain rfl := eq_of_openerOf? hd
  refine ⟨qs, rs, rfl, hqs, hrs, fun m => ?_⟩
  have hsettle : settle 0 (textOf qs) = some 0 :=
    settle_of_nest hqs fun kind t ht => hr kind t (List.mem_append_left _ ht)
  rw [textOf_append, textOf_cons, closerFlags_of_settle hsettle (Nat.succ_ne_zero m)]
  exact congrArg _ (closerFlags_closer (Nat.succ_ne_zero m) _)

/-- Each parenthesis of the run has one that closes it. -/
theorem count_closerFlags_of_nest (hn : nest (List.replicate n '(' ++ s) ps = some [])
    (hr : ∀ kind t, .region kind t ∈ ps → Neutral t) : (closerFlags n 0 (textOf ps)).count false = n := by
  induction n generalizing ps with
  | zero =>
    rw [closerFlags_zero, List.count_replicate]
    rfl
  | succ n ih =>
    rw [List.replicate_succ, List.cons_append] at hn
    obtain ⟨qs, rs, rfl, -, hrs, hflags⟩ := closerFlags_innermost hn (Nat.zero_le _) hr
    have hcount := ih hrs fun kind t ht => hr kind t (List.mem_append_right _ (List.mem_cons_of_mem _ ht))
    rw [hflags, List.count_append, List.count_replicate, List.count_cons_self, hcount]
    exact Nat.zero_add _

/-- The closing parentheses of the run go. -/
theorem removes_closers (hn : nest (List.replicate n '(' ++ s) ps = some [])
    (hr : ∀ kind t, .region kind t ∈ ps → Neutral t)
    (hP : ∀ ms ns, ps = ms ++ .code ')' :: ns → P (codeBehind before ms)) :
    ∃ qs, Removes P before ps (closerFlags n 0 (textOf ps)) qs ∧ nest s qs = some [] := by
  induction n generalizing before ps with
  | zero =>
    rw [closerFlags_zero]
    exact ⟨ps, .refl P before ps, hn⟩
  | succ n ih =>
    rw [List.replicate_succ, List.cons_append] at hn
    obtain ⟨qs, rs, rfl, hqs, hrs, hflags⟩ := closerFlags_innermost hn (Nat.zero_le _) hr
    rw [hflags]
    have hP' : ∀ ms ns, rs = ms ++ .code ')' :: ns → P (codeBehind (some ')') ms) := fun ms ns he => by
      have h := hP (qs ++ .code ')' :: ms) ns (by rw [he]; simp)
      rwa [codeBehind_append] at h
    obtain ⟨ks, hks, hnest⟩ :=
      ih hrs (fun kind t ht => hr kind t (List.mem_append_right _ (List.mem_cons_of_mem _ ht))) hP'
    exact ⟨qs ++ ks, (Removes.drop (.inr rfl) (hP qs rs rfl) hks).behind qs, by rw [nest_balanced_append hqs, hnest]⟩

/-- **A step.** In a balanced text whose regions are neutral the run goes with as many closing parentheses, and what is
left is balanced. -/
theorem removes_unnest (hn : nest s (pieces text) = some []) (hr : ∀ kind t, .region kind t ∈ pieces text → Neutral t)
    (hP : ∀ c, c = '(' ∨ isBlank c = true → P (some c)) (hb : P before)
    (hP' : ∀ ms ns, pieces text = ms ++ .code ')' :: ns → P (codeBehind before ms)) :
    ∃ qs, Removes P before (pieces text) (unnestFlags text) qs ∧ nest s qs = some [] := by
  obtain ⟨run, behind, htext, hrun, hbehind, hclass⟩ := openingRun_split text
  unfold unnestFlags
  simp only
  rw [hrun, hbehind]
  split
  · have h := Removes.refl P before (pieces text)
    rw [textOf_pieces] at h
    exact ⟨_, h, hn⟩
  · have hp : pieces text = run.map .code ++ pieces behind := by rw [← htext]; exact reads_run hclass behind
    rw [hp] at hn hr hP' ⊢
    rw [nest_run hclass] at hn
    have hr' : ∀ kind t, .region kind t ∈ pieces behind → Neutral t := fun kind t ht =>
      hr kind t (List.mem_append_right _ ht)
    have hbehind' : ∀ ms ns, pieces behind = ms ++ .code ')' :: ns →
        P (codeBehind (codeBehind before (run.map .code)) ms) := fun ms ns he => by
      have h := hP' (run.map .code ++ ms) ns (by rw [he]; simp)
      rwa [codeBehind_append] at h
    obtain ⟨ks, hks, hnest⟩ := removes_closers hn hr' hbehind'
    have hcount := count_closerFlags_of_nest hn hr'
    rw [textOf_pieces] at hks hcount
    rw [(closerFlags_spec ..).2.2.2] at hcount
    obtain ⟨qs, hqs, hblanks⟩ := removes_run hclass hP hb
    rw [hcount, Nat.sub_self]
    exact ⟨qs ++ ks, hqs.append hks, by rw [nest_append, hblanks, Option.bind_some, hnest]⟩

end Pairs

end SqlDialect.View
