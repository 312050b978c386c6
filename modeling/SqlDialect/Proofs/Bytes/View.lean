import SqlDialect.View.Nesting
import SqlDialect.Proofs.Bytes.Stages

/-!
# View definitions by byte offsets

The parentheses to remove from a view definition are collected by their offsets, in one list for the run behind FROM
and one for the closing ones, and the text is copied without the characters at these offsets.

* `dropAt_parts`: what is copied of a text are the copies of its parts.
* `openersFrom_eq`, `closersFrom_eq`: the offsets are those of the parentheses that its counterpart removes.
* `bracketsLoop_zero`: the definition is the same.
-/

namespace SqlDialect.Bytes

open Text

variable {text rest : Text} {c : Char} {i j : Nat}

/-- The offsets of the parentheses in the run of parentheses and blanks at an offset, and the offset behind the run. -/
def openersFrom (text : Text) (i : Nat) : Checked (List Nat × Nat) :=
  if i < byteLength text then do
    let b ← byte? text i
    if b = '(' then
      let (openers, stop) ← openersFrom text (i + 1)
      return (i :: openers, stop)
    else if isBlank b then openersFrom text (i + 1)
    else return ([], i)
  else return ([], i)
termination_by byteLength text - i

/-- The offsets of the first `limit` closing parentheses from an offset on that close none of the parentheses there. -/
def closersFrom (text : Text) (limit depth i : Nat) : Checked (List Nat) :=
  if i < byteLength text ∧ 0 < limit then
    match _h : skipLiteral text i with
    | some (some next) => closersFrom text limit depth next
    | some none => do
      let b ← byte? text i
      if b = '(' then closersFrom text limit (depth + 1) (i + 1)
      else if b = ')' ∧ depth = 0 then
        let closers ← closersFrom text (limit - 1) depth (i + 1)
        return i :: closers
      else if b = ')' then
        let depth ← minus depth 1
        closersFrom text limit depth (i + 1)
      else closersFrom text limit depth (i + 1)
    | none => none
  else return []
termination_by byteLength text - i
decreasing_by
  · have := skipLiteral_lt _h
    omega
  all_goals omega

/-- The text from the offset `i` on without the characters at the given offsets. -/
def dropAt (removed : List Nat) (i : Nat) : Text → Text
  | [] => []
  | c :: rest =>
    if removed.contains i then dropAt removed (i + c.utf8Size) rest else c :: dropAt removed (i + c.utf8Size) rest

/-- The text without the run at an offset, if it is too long. -/
def unnestAt (text : Text) (start : Nat) : Checked Text := do
  let (openers, i) ← openersFrom text start
  if openers.length ≤ View.threshold then return text
  else
    let closers ← closersFrom text openers.length 0 i
    let kept ← minus openers.length closers.length
    return dropAt (openers.drop kept ++ closers) 0 text

theorem byteLength_dropAt_le (removed : List Nat) (i : Nat) (t : Text) :
    byteLength (dropAt removed i t) ≤ byteLength t := by
  induction t generalizing i with
  | nil => exact Nat.le_refl _
  | cons c t ih =>
    have hrest := ih (i + c.utf8Size)
    rw [dropAt]
    split
    · rw [byteLength]
      omega
    · rw [byteLength, byteLength]
      omega

/-- Removing parentheses does not lengthen a text. -/
theorem byteLength_unnestAt_le {out : Text} (h : unnestAt text i = some out) : byteLength out ≤ byteLength text := by
  obtain ⟨run, -, h⟩ := Option.bind_eq_some_iff.mp h
  simp only at h
  split at h
  · cases h
    exact Nat.le_refl _
  · obtain ⟨closers, -, h⟩ := Option.bind_eq_some_iff.mp h
    obtain ⟨kept, -, h⟩ := Option.bind_eq_some_iff.mp h
    cases h
    exact byteLength_dropAt_le ..

/-- The definition with the runs unnested that stand behind an offset. -/
def bracketsLoop (text : Text) (cursor : Nat) : Checked Text :=
  match _k : findKeyword text View.fromWord cursor with
  | none => none
  | some none => return text
  | some (some i) =>
    match _u : unnestAt text (i + byteLength View.fromWord) with
    | none => none
    | some unnested => bracketsLoop unnested (i + byteLength View.fromWord)
termination_by byteLength text - cursor
decreasing_by
  have hpos : 0 < byteLength View.fromWord := by decide +kernel
  have := findKeyword_le _k
  have := byteLength_unnestAt_le _u
  omega

theorem bracketsLoop_of_found (h : findKeyword text View.fromWord i = some (some j)) :
    bracketsLoop text i = (do
      let unnested ← unnestAt text (j + byteLength View.fromWord)
      bracketsLoop unnested (j + byteLength View.fromWord)) := by
  rw [bracketsLoop, h]
  simp only
  rcases unnestAt text (j + byteLength View.fromWord) with _ | unnested <;> rfl

/-! ## Copying -/

/-- Only the offsets within the text matter. -/
theorem dropAt_congr {removed removed' : List Nat}
    (h : ∀ n, i ≤ n → n < i + byteLength text → (n ∈ removed ↔ n ∈ removed')) :
    dropAt removed i text = dropAt removed' i text := by
  induction text generalizing i with
  | nil => rfl
  | cons c rest ih =>
    have hpos := Char.utf8Size_pos c
    have hrest : dropAt removed (i + c.utf8Size) rest = dropAt removed' (i + c.utf8Size) rest :=
      ih fun n h₁ h₂ => h n (by omega) (by rw [byteLength]; omega)
    have hhead : removed.contains i = removed'.contains i := by
      rw [Bool.eq_iff_iff, List.contains_iff_mem, List.contains_iff_mem]
      exact h i (Nat.le_refl i) (by rw [byteLength]; omega)
    rw [dropAt, dropAt, hhead, hrest]

/-- The character at an offset that is removed is not copied. -/
theorem dropAt_cons_self (removed : List Nat) (i : Nat) (c : Char) (rest : Text) :
    dropAt (i :: removed) i (c :: rest) = dropAt removed (i + c.utf8Size) rest := by
  have hpos := Char.utf8Size_pos c
  rw [dropAt, if_pos (by simp)]
  refine dropAt_congr fun n h₁ _ => ?_
  rw [List.mem_cons, or_iff_right (by omega)]

/-- A character in front of all that is removed is copied. -/
theorem dropAt_cons_of_lt {removed : List Nat} (h : ∀ n ∈ removed, i < n) (c : Char) (rest : Text) :
    dropAt removed i (c :: rest) = c :: dropAt removed (i + c.utf8Size) rest := by
  have hnot : removed.contains i = false := by
    rw [Bool.eq_false_iff, ne_eq, List.contains_iff_mem]
    exact fun hi => Nat.lt_irrefl i (h i hi)
  rw [dropAt, hnot, if_neg (by simp)]

theorem dropAt_append (removed : List Nat) (i : Nat) (a b : Text) :
    dropAt removed i (a ++ b) = dropAt removed i a ++ dropAt removed (i + byteLength a) b := by
  induction a generalizing i with
  | nil => rfl
  | cons c a ih =>
    rw [List.cons_append, dropAt, dropAt, ih, byteLength, Nat.add_assoc]
    split <;> rfl

/-- A text stays as it is where nothing is removed. -/
theorem dropAt_eq_self {removed : List Nat} (h : ∀ n ∈ removed, n < i ∨ i + byteLength text ≤ n) :
    dropAt removed i text = text := by
  have hempty : ∀ (j : Nat) (t : Text), dropAt [] j t = t := fun j t => by
    induction t generalizing j with
    | nil => rfl
    | cons c t ih => rw [dropAt, ih]; rfl
  have hnone : dropAt removed i text = dropAt [] i text := dropAt_congr fun n h₁ h₂ => by
    refine iff_of_false (fun hn => ?_) List.not_mem_nil
    have := h n hn
    omega
  rw [hnone, hempty]

/-- The offsets of the run and those behind it are removed in their parts of a text. -/
theorem dropAt_parts {front run behind : Text} {openers closers : List Nat}
    (ho : ∀ n ∈ openers, byteLength front ≤ n ∧ n < byteLength (front ++ run))
    (hc : ∀ n ∈ closers, byteLength (front ++ run) ≤ n) :
    dropAt (openers ++ closers) 0 (front ++ run ++ behind) =
      front ++ dropAt openers (byteLength front) run ++ dropAt closers (byteLength (front ++ run)) behind := by
  rw [byteLength_append] at ho hc ⊢
  have hfront : dropAt (openers ++ closers) 0 front = front := dropAt_eq_self fun n hn => by
    rcases List.mem_append.mp hn with hn | hn
    · have := ho n hn
      omega
    · have := hc n hn
      omega
  have hrun : dropAt (openers ++ closers) (byteLength front) run = dropAt openers (byteLength front) run :=
    dropAt_congr fun n _ h₂ => by
      rw [List.mem_append, or_iff_left]
      intro hn
      have := hc n hn
      omega
  have hbehind : dropAt (openers ++ closers) (byteLength front + byteLength run) behind =
      dropAt closers (byteLength front + byteLength run) behind :=
    dropAt_congr fun n h₁ _ => by
      rw [List.mem_append, or_iff_right]
      intro hn
      have := ho n hn
      omega
  rw [dropAt_append, dropAt_append, byteLength_append, Nat.zero_add, Nat.zero_add, hfront, hrun, hbehind]

/-! ## The run -/

theorem openersFrom_of_byte {b : Char} (hb : byte? text i = some b) :
    openersFrom text i = (do
      if b = '(' then
        let (openers, stop) ← openersFrom text (i + 1)
        return (i :: openers, stop)
      else if isBlank b then openersFrom text (i + 1)
      else return ([], i)) := by
  rw [openersFrom, if_pos (lt_of_byte? hb), hb]
  rfl

theorem keepOpeners_cons (hc : c ≠ '(') (k : Nat) (run : Text) :
    View.keepOpeners k (c :: run) = c :: View.keepOpeners k run := by
  cases k <;> simp [View.keepOpeners, hc]

/-- The run behind a position, and what is left of it without its parentheses behind the first `k`. -/
theorem openersFrom_eq (hi : i ≤ text.length) :
    ∃ openers, openersFrom text (byteOffset text i) =
        some (openers, byteOffset text (i + (View.openingRun (text.drop i)).length)) ∧
      openers.length = (View.openingRun (text.drop i)).count '(' ∧
      (∀ n ∈ openers, byteOffset text i ≤ n ∧ n < byteOffset text (i + (View.openingRun (text.drop i)).length)) ∧
      ∀ k, dropAt (openers.drop k) (byteOffset text i) (View.openingRun (text.drop i)) =
        View.keepOpeners k (View.openingRun (text.drop i)) := by
  generalize h : text.drop i = rest
  induction rest generalizing i with
  | nil =>
    refine ⟨[], ?_, rfl, by simp, fun k => by cases k <;> rfl⟩
    rw [openersFrom, if_neg (by rw [byteOffset_of_le (List.drop_eq_nil_iff.mp h)]; omega)]
    rfl
  | cons c rest ih =>
    have hnext : i + 1 ≤ text.length := lt_of_drop h
    obtain ⟨openers, ho, hlen, hmem, hkeep⟩ := ih hnext (drop_succ h)
    have hlt := byteOffset_lt_succ (lt_of_drop h)
    -- the first character stands in front of all parentheses behind it
    have hbehind : ∀ k, ∀ n ∈ openers.drop k, byteOffset text i < n := fun k n hn =>
      Nat.lt_of_lt_of_le hlt (hmem n (List.mem_of_mem_drop hn)).1
    by_cases hc : c = '('
    · subst hc
      have hw : ¬ Wide '(' := by decide
      have hrun : View.openingRun ('(' :: rest) = '(' :: View.openingRun rest := rfl
      have hsucc := byteOffset_succ_of_not_wide h hw
      have hstop : i + (View.openingRun ('(' :: rest)).length = i + 1 + (View.openingRun rest).length := by
        rw [hrun, List.length_cons]
        omega
      refine ⟨byteOffset text i :: openers, ?_, by simp [hrun, hlen], ?_, fun k => ?_⟩
      · rw [openersFrom_of_byte (byte?_byteOffset h hw), ← hsucc, ho, hstop]
        rfl
      · intro n hn
        rw [hstop]
        rcases List.mem_cons.mp hn with rfl | hn
        · exact ⟨Nat.le_refl _, Nat.lt_of_lt_of_le hlt (byteOffset_mono (Nat.le_add_right ..))⟩
        · exact ⟨by have := (hmem n hn).1; omega, (hmem n hn).2⟩
      · have hsize : ('(' : Char).utf8Size = 1 := by decide
        cases k with
        | zero =>
          rw [List.drop_zero, hrun, dropAt_cons_self, hsize, ← hsucc, ← List.drop_zero (l := openers), hkeep]
          rfl
        | succ k =>
          rw [List.drop_succ_cons, hrun, dropAt_cons_of_lt (hbehind k), hsize, ← hsucc, hkeep]
          rfl
    · by_cases hb : isBlank c = true
      · have hw := not_wide_of_isBlank hb
        have hrun : View.openingRun (c :: rest) = c :: View.openingRun rest := by
          rw [View.openingRun, List.takeWhile_cons_of_pos (by simp [hb])]
          rfl
        have hsucc := byteOffset_succ_of_not_wide h hw
        have hstop : i + (View.openingRun (c :: rest)).length = i + 1 + (View.openingRun rest).length := by
          rw [hrun, List.length_cons]
          omega
        refine ⟨openers, ?_, by simp [hrun, hlen, hc], fun n hn => ?_, fun k => ?_⟩
        · rw [openersFrom_of_byte (byte?_byteOffset h hw), if_neg hc, if_pos hb, ← hsucc, ho, hstop]
        · rw [hstop]
          exact ⟨by have := (hmem n hn).1; omega, (hmem n hn).2⟩
        · rw [hrun, dropAt_cons_of_lt (hbehind k), utf8Size_of_not_wide hw, ← hsucc, hkeep, keepOpeners_cons hc]
      · have hrun : View.openingRun (c :: rest) = [] := by
          rw [View.openingRun, List.takeWhile_cons_of_neg (by simp [hb, hc])]
        refine ⟨[], ?_, by simp [hrun], by simp, fun k => by rw [hrun]; cases k <;> rfl⟩
        rw [hrun]
        obtain ⟨-, hbyte⟩ | ⟨-, b, hbyte, hwb⟩ := byte?_cases h
        · rw [openersFrom_of_byte hbyte, if_neg hc, if_neg hb]
          rfl
        · rw [openersFrom_of_byte hbyte, if_neg (ne_of_wide hwb (by decide)), isBlank_of_wide hwb]
          rfl

/-! ## The closing parentheses -/

theorem closersFrom_of_byte {limit depth : Nat} {b : Char} (hl : 0 < limit) (hb : byte? text i = some b) :
    closersFrom text limit depth i = (do
      match ← skipLiteral text i with
      | some next => closersFrom text limit depth next
      | none =>
        if b = '(' then closersFrom text limit (depth + 1) (i + 1)
        else if b = ')' ∧ depth = 0 then
          let closers ← closersFrom text (limit - 1) depth (i + 1)
          return i :: closers
        else if b = ')' then
          let depth ← minus depth 1
          closersFrom text limit depth (i + 1)
        else closersFrom text limit depth (i + 1)) := by
  rw [closersFrom, if_pos ⟨lt_of_byte? hb, hl⟩, hb]
  rcases skipLiteral text i with _ | _ | next <;> rfl

theorem closersFrom_wide {limit depth : Nat} {b : Char} (hb : byte? text i = some b) (hw : Wide b) :
    closersFrom text limit depth i = closersFrom text limit depth (i + 1) := by
  by_cases hl : 0 < limit
  · rw [closersFrom_of_byte hl hb, skipLiteral_wide hb hw]
    simp only [Option.bind_eq_bind, Option.bind_some, if_neg (ne_of_wide hw (by decide : ¬ Wide '(')),
      ne_of_wide hw (by decide : ¬ Wide ')'), false_and, if_false]
  · have hnone : ∀ j, closersFrom text limit depth j = some [] := fun j => by
      rw [closersFrom, if_neg fun h => hl h.2]
      rfl
    rw [hnone, hnone]

/-- At a character that is not removed and starts no literal. -/
theorem closersFrom_code {limit depth : Nat} (h : text.drop i = c :: rest) (hl : 0 < limit)
    (hn : literalTail? c rest = none) (hc : ¬ (c = ')' ∧ depth = 0)) :
    closersFrom text limit depth (byteOffset text i) =
      closersFrom text limit (if c = '(' then depth + 1 else if c = ')' then depth - 1 else depth)
        (byteOffset text (i + 1)) := by
  by_cases hw : Wide c
  · rw [if_neg (ne_of_wide hw (by decide)), if_neg (ne_of_wide hw (by decide))]
    exact step_wide h hw fun _ _ => closersFrom_wide
  · rw [closersFrom_of_byte hl (byte?_byteOffset h hw), skipLiteral_eq h, hn, ← byteOffset_succ_of_not_wide h hw]
    simp only [Option.map_none, Option.bind_eq_bind, Option.bind_some]
    by_cases ho : c = '('
    · rw [if_pos ho, if_pos ho]
    · rw [if_neg ho, if_neg hc, if_neg ho]
      by_cases hclose : c = ')'
      · have hdepth : 0 < depth := Nat.pos_of_ne_zero fun e => hc ⟨hclose, e⟩
        rw [if_pos hclose, if_pos hclose, minus_of_le hdepth]
        rfl
      · rw [if_neg hclose, if_neg hclose]

/-- The closing parentheses behind a position, and what is left without them. -/
theorem closersFrom_eq (limit depth : Nat) (hi : i ≤ text.length) (h : text.drop i = rest) :
    ∃ closers, closersFrom text limit depth (byteOffset text i) = some closers ∧
      closers.length = (View.dropClosers limit depth rest).2 ∧ (∀ n ∈ closers, byteOffset text i ≤ n) ∧
      dropAt closers (byteOffset text i) rest = (View.dropClosers limit depth rest).1 := by
  fun_induction View.dropClosers limit depth rest generalizing i with
  | case1 limit depth =>
    refine ⟨[], ?_, rfl, by simp, rfl⟩
    rw [closersFrom, if_neg (by rw [byteOffset_of_le (List.drop_eq_nil_iff.mp h)]; omega)]
    rfl
  | case2 depth c rest =>
    refine ⟨[], ?_, rfl, by simp, dropAt_eq_self (by simp)⟩
    rw [closersFrom, if_neg (by simp)]
    rfl
  | case3 limit depth c rest hl n hn kept dropped hd ih =>
    have hr : regionTail? c rest = some (.literal, n) := by rw [regionTail?, hn]
    obtain ⟨hnext, hdrop⟩ := next_of_regionTail? h hr
    obtain ⟨closers, hc, hlen, hmem, hkept⟩ := ih hnext hdrop
    rw [hd] at hlen hkept
    have hlt : byteOffset text i ≤ byteOffset text (i + n + 1) := byteOffset_mono (by omega)
    have hliteral : byteOffset text i + byteLength (c :: rest.take n) = byteOffset text (i + n + 1) := by
      rw [Nat.add_assoc, byteOffset_add, h, List.take_succ_cons]
    refine ⟨closers, ?_, hlen, fun m hm => Nat.le_trans hlt (hmem m hm), ?_⟩
    · obtain ⟨b, hb⟩ := exists_byte? h
      rw [closersFrom_of_byte (Nat.pos_of_ne_zero hl) hb, skipLiteral_eq h, hn]
      exact hc
    · have hsplit : c :: rest = c :: rest.take n ++ rest.drop n := by rw [List.cons_append, List.take_append_drop]
      rw [hsplit, dropAt_append, hliteral, hkept,
        dropAt_eq_self fun m hm => Or.inr (by rw [hliteral]; exact hmem m hm)]
  | case4 limit depth c rest hl hn hc =>
    rename_i kept dropped hd ih
    obtain ⟨rfl, rfl⟩ := hc
    have hw : ¬ Wide ')' := by decide
    have hnext : i + 1 ≤ text.length := lt_of_drop h
    obtain ⟨closers, hc, hlen, hmem, hkept⟩ := ih hnext (drop_succ h)
    rw [hd] at hlen hkept
    have hlt := byteOffset_lt_succ hnext
    have hsucc := byteOffset_succ_of_not_wide h hw
    refine ⟨byteOffset text i :: closers, ?_, by simp [hlen], ?_, ?_⟩
    · rw [closersFrom_of_byte (Nat.pos_of_ne_zero hl) (byte?_byteOffset h hw), skipLiteral_eq h, hn, ← hsucc]
      simp only [Option.map_none, Option.bind_eq_bind, Option.bind_some]
      rw [if_neg (by decide), if_pos (by simp), hc]
      rfl
    · intro m hm
      rcases List.mem_cons.mp hm with rfl | hm
      · exact Nat.le_refl _
      · have := hmem m hm
        omega
    · rw [dropAt_cons_self, utf8Size_of_not_wide hw, ← hsucc, hkept]
  | case5 limit depth c rest hl hn hc =>
    rename_i inner kept dropped hd ih
    have hnext : i + 1 ≤ text.length := lt_of_drop h
    obtain ⟨closers, hclosers, hlen, hmem, hkept⟩ := ih hnext (drop_succ h)
    rw [hd] at hlen hkept
    have hinner : inner = if c = '(' then depth + 1 else if c = ')' then depth - 1 else depth := by
      simp only [inner, dite_eq_ite]
    have hbehind : ∀ m ∈ closers, byteOffset text i < m := fun m hm =>
      Nat.lt_of_lt_of_le (byteOffset_lt_succ hnext) (hmem m hm)
    refine ⟨closers, ?_, hlen, fun m hm => Nat.le_of_lt (hbehind m hm), ?_⟩
    · rw [closersFrom_code h (Nat.pos_of_ne_zero hl) hn hc, ← hinner, hclosers]
    · rw [dropAt_cons_of_lt hbehind, ← byteOffset_succ h, hkept]

theorem dropClosers_le (limit depth : Nat) (t : Text) : (View.dropClosers limit depth t).2 ≤ limit := by
  fun_induction View.dropClosers limit depth t with
  | case1 => exact Nat.zero_le _
  | case2 => exact Nat.zero_le _
  | case3 limit depth c rest hl n hn kept dropped h ih =>
    rw [h] at ih
    exact ih
  | case4 limit depth c rest hl hn hc kept dropped h ih =>
    rw [h] at ih
    simp only at ih ⊢
    omega
  | case5 limit depth c rest hl hn hc d kept dropped h ih =>
    rw [h] at ih
    exact ih

/-! ## Definitions -/

/-- The run behind a position is unnested. -/
theorem unnestAt_eq (hi : i ≤ text.length) :
    unnestAt text (byteOffset text i) = some (text.take i ++ (View.unnest (text.drop i)).1) := by
  obtain ⟨openers, ho, hlen, hmem, hkeep⟩ := openersFrom_eq hi
  rw [unnestAt, ho, View.unnest]
  generalize hrun : View.openingRun (text.drop i) = run at hlen hmem hkeep
  have hprefix : run = (text.drop i).take run.length := by
    rw [← hrun]
    exact (take_length_takeWhile _ _).symm
  have htake : text.take (i + run.length) = text.take i ++ run := by rw [List.take_add, ← hprefix]
  have hstop : i + run.length ≤ text.length := by
    have := congrArg List.length hprefix
    rw [List.length_take, List.length_drop] at this
    omega
  obtain ⟨closers, hc, hclosers, hbehind, hkept⟩ := closersFrom_eq openers.length 0 hstop rfl
  have hle : closers.length ≤ openers.length := by
    rw [hclosers]
    exact dropClosers_le ..
  simp only [Option.bind_eq_bind, Option.bind_some, ← hlen]
  by_cases ht : openers.length ≤ View.threshold
  · rw [if_pos ht, if_pos ht, List.take_append_drop]
    rfl
  · have hsplit : text.take i ++ run ++ text.drop (i + run.length) = text := by
      rw [← htake, List.take_append_drop]
    rw [byteOffset, htake] at hbehind hkept
    rw [byteOffset, byteOffset, htake] at hmem
    have hkept : dropAt (openers.drop (openers.length - closers.length) ++ closers) 0 text =
        text.take i ++ View.keepOpeners (openers.length - closers.length) run ++
          (View.dropClosers openers.length 0 (text.drop (i + run.length))).1 :=
      calc dropAt (openers.drop (openers.length - closers.length) ++ closers) 0 text
        _ = dropAt (openers.drop (openers.length - closers.length) ++ closers) 0
              (text.take i ++ run ++ text.drop (i + run.length)) := by rw [hsplit]
        _ = text.take i ++ dropAt (openers.drop (openers.length - closers.length)) (byteOffset text i) run ++
              dropAt closers (byteLength (text.take i ++ run)) (text.drop (i + run.length)) :=
            dropAt_parts (fun n hn => hmem n (List.mem_of_mem_drop hn)) hbehind
        _ = _ := by rw [hkeep, hkept]
    rw [if_neg ht, if_neg ht, hc, List.drop_drop, ← hclosers]
    simp only [Option.bind_some, minus_of_le hle, hkept, List.append_assoc]
    rfl

/-- What stands in front of a text matters for a search only where it goes on in the text. -/
theorem findKeyword_congr {word : Text} {before before' : Option Char} (h : before.any isWord = before'.any isWord)
    (rest : Text) : SqlDialect.findKeyword word before rest = SqlDialect.findKeyword word before' rest := by
  cases rest with
  | nil => rw [SqlDialect.findKeyword, SqlDialect.findKeyword]
  | cons c rest =>
    rw [SqlDialect.findKeyword, SqlDialect.findKeyword, startsKeyword, startsKeyword, h]

/-- A word in another letter case ends in a word character if it does. -/
theorem getLast?_any_of_lower_eq {v w : Text} (h : Text.lower v = Text.lower w) :
    v.getLast?.any isWord = w.getLast?.any isWord := by
  have hlower : ∀ t : Text, t.getLast?.any isWord = (Text.lower t).getLast?.any isWord := fun t => by
    rw [Text.lower, List.getLast?_map]
    cases t.getLast? with
    | none => rfl
    | some c => rw [Option.map_some, Option.any_some, Option.any_some, isWord_toLower]
  rw [hlower v, h, ← hlower w]

theorem startsAscii_fromWord : StartsAscii View.fromWord := ⟨'f', "rom".toList, by decide +kernel, by decide⟩

/-- The unnesting of the runs behind what is done. -/
theorem bracketsLoop_eq {before : Option Char} (done rest : Text)
    (hbefore : done.getLast?.any isWord = before.any isWord) :
    bracketsLoop (done ++ rest) (byteLength done) = some (done ++ (View.unnestFrom before rest).1) := by
  fun_induction View.unnestFrom before rest generalizing done with
  | case1 before rest hk =>
    rw [bracketsLoop, findKeyword_append startsAscii_fromWord, findKeyword_congr hbefore, hk]
    rfl
  | case2 before rest n hk stop step later shortfalls hl ih =>
    rw [← findKeyword_congr hbefore] at hk
    have hs := starts_of_findKeyword done hk
    obtain ⟨v, u, hvu, hv⟩ := starts_iff.mp hs
    have hword := length_eq_of_lower_eq hv
    have hfront : (done ++ rest).take (done.length + stop) = done ++ rest.take n ++ v := by
      rw [← Nat.add_assoc, List.take_add, hvu, ← hword, List.take_left, take_left_add]
    have hstop : done.length + stop ≤ (done ++ rest).length := by
      have := findKeyword_add_le hk
      rw [List.length_append]
      omega
    have hlast : (done ++ rest.take stop).getLast?.any isWord = View.fromWord.getLast?.any isWord := by
      rw [take_left_add] at hfront
      rw [hfront, List.getLast?_append, ← getLast?_any_of_lower_eq hv]
      cases hl : v.getLast? with
      | some c => rfl
      | none =>
        rw [List.getLast?_eq_none_iff.mp hl] at hword
        exact absurd hword (by decide +kernel)
    have hunnest := unnestAt_eq hstop
    rw [take_left_add, drop_left_add, byteOffset_left_add] at hunnest
    rw [bracketsLoop_of_found (findKeyword_found startsAscii_fromWord hk)]
    simp only [Option.bind_eq_bind, byteOffset_add_word hs, Nat.add_assoc]
    rw [byteOffset_left_add, hunnest, Option.bind_some, ih _ hlast, hl, List.append_assoc]

/-- The definition without redundant parentheses. -/
theorem bracketsLoop_zero (text : Text) : bracketsLoop text 0 = some (View.removeRedundantBrackets text) :=
  bracketsLoop_eq [] text rfl

end SqlDialect.Bytes
