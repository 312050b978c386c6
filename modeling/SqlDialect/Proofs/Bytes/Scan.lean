import SqlDialect.Split
import SqlDialect.Proofs.Bytes.Basic
import SqlDialect.Proofs.Nesting
import SqlDialect.Proofs.Trim

/-!
# Scanning by byte offsets

The scans to the right that all stages share: over literals and comments, and to the delimiter that closes another.

* `skipOpaque_eq`: a literal or comment is passed over whole.
* `findClosing_eq`: a delimiter is closed where its counterpart is.
-/

namespace SqlDialect.Bytes

open Text

section

variable {text rest : Text} {c : Char} {i j : Nat}

/-! ## Literals and comments -/

/-- The offset of the first place where a word stands in a text. -/
def find? (word : Text) : Text → Option Nat
  | [] => if word.isEmpty then some 0 else none
  | c :: rest => if word.isPrefixOf (c :: rest) then some 0 else (find? word rest).map (c.utf8Size + ·)

/-- The offset of the end of the line that holds an offset. -/
def lineEnd (text : Text) (i : Nat) : Checked Nat := do
  let line ← sliceFrom text i
  return ((find? ['\n'] line).map (i + ·)).getD (byteLength text)

/-- The offset behind the comment that starts at an offset, if one does. -/
def skipComment (text : Text) (i : Nat) : Checked (Option Nat) :=
  if byte? text i = some '/' ∧ byte? text (i + 1) = some '*' then do
    let body ← sliceFrom text (i + 2)
    return some (((find? ['*', '/'] body).map (i + 2 + · + 2)).getD (byteLength text))
  else if byte? text i = some '#' then do
    return some (← lineEnd text i)
  else if byte? text i = some '-' ∧ byte? text (i + 1) = some '-' ∧ (byte? text (i + 2)).all isBlank = true then do
    return some (← lineEnd text i)
  else return none

theorem find?_newline (t : Text) (k : Nat) :
    ((find? ['\n'] t).map (k + ·)).getD (k + byteLength t) = k + byteLength (t.take (lineLength t)) := by
  induction t generalizing k with
  | nil => simp [find?, lineLength]
  | cons c t ih =>
    rw [find?, lineLength]
    by_cases hc : c = '\n'
    · subst hc
      simp [byteLength]
    · have hp : (['\n'] : Text).isPrefixOf (c :: t) = false := by
        simp only [List.isPrefixOf, Bool.and_true, beq_eq_false_iff_ne]
        exact fun e => hc e.symm
      rw [hp, if_neg (by simp), if_neg hc, Option.map_map, List.take_succ_cons, byteLength, byteLength, ← Nat.add_assoc,
        ← Nat.add_assoc, ← ih]
      congr 2
      funext m
      simp only [Function.comp_apply, Nat.add_assoc]

theorem find?_blockEnd (t : Text) (k : Nat) :
    ((find? ['*', '/'] t).map (k + · + 2)).getD (k + byteLength t) = k + byteLength (t.take (blockLength t)) := by
  fun_induction blockLength t generalizing k with
  | case1 => simp [find?]
  | case2 t =>
    have hp : (['*', '/'] : Text).isPrefixOf ('*' :: '/' :: t) = true := by simp [List.isPrefixOf]
    rw [find?, hp, if_pos rfl]
    have h1 : ('*' : Char).utf8Size = 1 := by decide
    have h2 : ('/' : Char).utf8Size = 1 := by decide
    simp [byteLength, h1, h2]
  | case3 c t hne ih =>
    have hp : (['*', '/'] : Text).isPrefixOf (c :: t) = false := by
      cases t with
      | nil => simp [List.isPrefixOf]
      | cons d t =>
        rw [Bool.eq_false_iff]
        intro he
        simp only [List.isPrefixOf, Bool.and_true, Bool.and_eq_true, beq_iff_eq] at he
        exact hne t he.1.symm (by rw [← he.2])
    rw [find?, hp, if_neg (by simp), Option.map_map, List.take_succ_cons, byteLength, byteLength, ← Nat.add_assoc,
      ← Nat.add_assoc, ← ih]
    congr 2
    funext m
    simp only [Function.comp_apply]
    omega

theorem lineEnd_eq (hi : i ≤ text.length) :
    lineEnd text (byteOffset text i) = some (byteOffset text (i + lineLength (text.drop i))) := by
  rw [lineEnd, sliceFrom_byteOffset hi, byteOffset_add, ← find?_newline, byteLength_eq text i]
  rfl

/-- What starts a comment, by bytes and by characters. -/
theorem comment_bytes (h : text.drop i = c :: rest) :
    (byte? text (byteOffset text i) = some '/' ∧ byte? text (byteOffset text i + 1) = some '*' ↔
      c = '/' ∧ rest.head? = some '*') ∧
    (byte? text (byteOffset text i) = some '#' ↔ c = '#') ∧
    (byte? text (byteOffset text i) = some '-' ∧ byte? text (byteOffset text i + 1) = some '-' ∧
        (byte? text (byteOffset text i + 2)).all isBlank = true ↔
      c = '-' ∧ rest.head? = some '-' ∧ rest.tail.head?.all isBlank = true) := by
  have hhead : ∀ d : Char, ¬ Wide d → (byte? text (byteOffset text i) = some d ↔ c = d) := fun d hd => by
    rw [byte?_eq_some_iff hd, h, List.head?_cons, Option.some.injEq]
  have hnext : ∀ d : Char, ¬ Wide d → ¬ Wide c →
      (byte? text (byteOffset text i + 1) = some d ↔ rest.head? = some d) := fun d hd hc => by
    rw [← byteOffset_succ_of_not_wide h hc, byte?_eq_some_iff hd, drop_succ h]
  refine ⟨?_, hhead '#' (by decide), ?_⟩
  · rw [hhead '/' (by decide)]
    exact and_congr_right fun hc => hnext '*' (by decide) (by rw [hc]; decide)
  · rw [hhead '-' (by decide)]
    refine and_congr_right fun hc => ?_
    rw [hnext '-' (by decide) (by rw [hc]; decide)]
    refine and_congr_right fun hd => ?_
    obtain ⟨body, rfl⟩ : ∃ body, rest = '-' :: body := by
      cases rest with
      | nil => cases hd
      | cons d body => exact ⟨body, by rw [Option.some.inj hd]⟩
    have hoffset : byteOffset text i + 2 = byteOffset text (i + 2) := by
      rw [byteOffset_succ_of_not_wide (drop_succ h) (by decide), byteOffset_succ_of_not_wide h (by rw [hc]; decide)]
    have hmap := map_byte? (fun d hd => isBlank_of_wide hd) text (i + 2)
    rw [hoffset, List.tail_cons, ← drop_succ (drop_succ h)]
    cases hb : byte? text (byteOffset text (i + 2)) <;> cases hl : (text.drop (i + 2)).head? <;> simp_all

/-- A comment is passed over. -/
theorem skipComment_eq (h : text.drop i = c :: rest) :
    skipComment text (byteOffset text i) = some ((commentTail? c rest).map fun n => byteOffset text (i + n + 1)) := by
  have hi := Nat.le_of_lt (lt_of_drop h)
  obtain ⟨hblock, hline, hdashes⟩ := comment_bytes h
  have hend : ∀ n, lineLength (c :: rest) = n + 1 →
      lineEnd text (byteOffset text i) = some (byteOffset text (i + n + 1)) := fun n hn => by
    rw [lineEnd_eq hi, h, hn, Nat.add_assoc]
  unfold commentTail?
  split
  · -- a line comment
    rw [skipComment, if_neg (by rw [hblock]; simp), if_pos (hline.mpr rfl),
      hend _ (by rw [lineLength, if_neg (by decide)])]
    rfl
  · -- a block comment
    next body =>
    have hoffset : byteOffset text i + 2 = byteOffset text (i + 2) := by
      rw [byteOffset_succ_of_not_wide (drop_succ h) (by decide), byteOffset_succ_of_not_wide h (by decide)]
    have hbody : byteOffset text (i + 2) + byteLength (body.take (blockLength body)) =
        byteOffset text (i + (blockLength body + 1) + 1) := by
      rw [← drop_succ (drop_succ h), ← byteOffset_add, drop_succ (drop_succ h)]
      congr 1
      omega
    rw [skipComment, if_pos (hblock.mpr ⟨rfl, rfl⟩), hoffset, sliceFrom_byteOffset (lt_of_drop (drop_succ h)),
      byteLength_eq text (i + 2), drop_succ (drop_succ h)]
    simp only [Option.bind_eq_bind, Option.bind_some, find?_blockEnd, Option.map_some, hbody, Option.pure_def]
  · -- two dashes
    next body =>
    rw [skipComment, if_neg (by rw [hblock]; simp), if_neg (by rw [hline]; decide)]
    by_cases hb : body.head?.all isBlank = true
    · rw [if_pos (hdashes.mpr ⟨rfl, rfl, hb⟩), if_pos hb, hend (lineLength body + 1) (by simp [lineLength])]
      rfl
    · rw [if_neg (by rw [hdashes]; simpa using hb), if_neg hb]
      rfl
  · next c' rest' h₁ h₂ h₃ =>
    rw [skipComment, if_neg, if_neg, if_neg]
    · rfl
    · rw [hdashes]
      rintro ⟨rfl, hd, -⟩
      cases rest with
      | nil => cases hd
      | cons d body => exact h₃ body rfl (by rw [Option.some.inj hd])
    · rw [hline]
      exact h₁
    · rw [hblock]
      rintro ⟨rfl, hd⟩
      cases rest with
      | nil => cases hd
      | cons d body => exact h₂ body rfl (by rw [Option.some.inj hd])

/-- At a byte beyond ASCII no comment starts. -/
theorem skipComment_wide {b : Char} (hb : byte? text i = some b) (hw : Wide b) : skipComment text i = some none := by
  have hne : ∀ d : Char, ¬ Wide d → byte? text i ≠ some d := fun d hd e => by
    rw [hb, Option.some.injEq] at e
    exact ne_of_wide hw hd e
  rw [skipComment, if_neg fun e => hne '/' (by decide) e.1, if_neg (hne '#' (by decide)),
    if_neg fun e => hne '-' (by decide) e.1]
  rfl

/-- A comment is not empty. -/
theorem skipComment_lt (h : skipComment text i = some (some j)) : i < j ∧ i < byteLength text := by
  cases hb : byte? text i with
  | none =>
    rw [skipComment, hb, if_neg (by simp), if_neg (by simp), if_neg (by simp)] at h
    cases h
  | some b =>
    by_cases hw : Wide b
    · rw [skipComment_wide hb hw] at h
      cases h
    · obtain ⟨k, rest, rfl, hdrop⟩ := exists_position hb hw
      rw [skipComment_eq hdrop, Option.some.injEq] at h
      obtain ⟨n, -, rfl⟩ := Option.map_eq_some_iff.mp h
      have hlt := byteOffset_lt_succ (lt_of_drop hdrop)
      exact ⟨Nat.lt_of_lt_of_le hlt (byteOffset_mono (by omega)), lt_of_byte? hb⟩

/-! ## Closing delimiters -/

/-- The offset of the next byte `q` behind an offset. -/
def quoteClosing (text : Text) (i : Nat) (q : Char) : Checked (Option Nat) := do
  let bs ← bytesFrom text (i + 1)
  return (bs.idxOf? q).map (i + 1 + ·)

theorem quoteClosing_lt {q : Char} (h : quoteClosing text i q = some (some j)) : i < j := by
  obtain ⟨bs, -, hbs⟩ := Option.bind_eq_some_iff.mp h
  obtain ⟨n, -, rfl⟩ := Option.map_eq_some_iff.mp (Option.some.inj hbs)
  omega

/-- The search for the bracket that closes the last of `stack`, from an offset on. -/
def closingLoop (text : Text) (stack : List Char) (i : Nat) : Checked (Option Nat) :=
  if i < byteLength text then do
    let b ← byte? text i
    if isQuote b then
      match _h : quoteClosing text i b with
      | some (some close) => closingLoop text stack (close + 1)
      | some none => return none
      | none => none
    else
      match _h : skipComment text i with
      | some (some next) => closingLoop text stack next
      | some none =>
        if isOpener b then closingLoop text (b :: stack) (i + 1)
        else
          match openerOf? b, stack with
          | none, _ => closingLoop text stack (i + 1)
          | some _, [] => return none
          | some o, top :: outer =>
            if top ≠ o then return none
            else if outer.isEmpty then return some i
            else closingLoop text outer (i + 1)
      | none => none
  else return none
termination_by byteLength text - i
decreasing_by
  · have := quoteClosing_lt _h
    omega
  · have := skipComment_lt _h
    omega
  all_goals omega

/-- The offset of the delimiter that closes the one at an offset. -/
def findClosing (text : Text) (i : Nat) : Checked (Option Nat) :=
  match byte? text i with
  | none => return none
  | some b =>
    if isQuote b then quoteClosing text i b
    else if isOpener b then closingLoop text [b] (i + 1)
    else return none

/-- The offset behind the literal that starts at an offset, if one does. -/
def skipLiteral (text : Text) (i : Nat) : Checked (Option Nat) :=
  match byte? text i with
  | none => return none
  | some b => if isQuote b then do return (← findClosing text i).map (· + 1) else return none

/-- The offset behind the literal or comment that starts at an offset, if one does. -/
def skipOpaque (text : Text) (i : Nat) : Checked (Option Nat) := do
  match ← skipLiteral text i with
  | some next => return some next
  | none => skipComment text i

theorem not_wide_of_openerOf? {b o : Char} (h : openerOf? b = some o) : ¬ Wide b := fun hw => by
  rw [openerOf?_of_wide hw] at h
  cases h

theorem not_wide_of_commentTail? {n : Nat} (h : commentTail? c rest = some n) : ¬ Wide c := by
  rcases mark_of_commentTail? h with rfl | rfl | rfl <;> decide

theorem idxOf?_bytes {q : Char} (hq : ¬ Wide q) (t : Text) :
    (bytes t).idxOf? q = (t.idxOf? q).map fun n => byteLength (t.take n) := by
  induction t with
  | nil => rfl
  | cons c t ih =>
    have hskip : ∀ bs : List Char, (∀ b ∈ bs, b ≠ q) → ∀ rest : List Char,
        (bs ++ rest).idxOf? q = (rest.idxOf? q).map (bs.length + ·) := fun bs => by
      induction bs with
      | nil => simp
      | cons b bs ihb =>
        intro hne rest
        rw [List.cons_append, List.idxOf?_cons, if_neg (by simpa using hne b List.mem_cons_self),
          ihb fun d hd => hne d (List.mem_cons_of_mem _ hd), Option.map_map]
        congr 1
        funext n
        simp only [Function.comp_apply, List.length_cons]
        omega
    rw [bytes_cons, List.idxOf?_cons]
    by_cases hc : c = q
    · subst hc
      rw [charBytes_of_not_wide hq, List.singleton_append, List.idxOf?_cons, if_pos (by simp), if_pos (by simp)]
      rfl
    · have hne : ∀ b ∈ charBytes c, b ≠ q := fun b hb => by
        by_cases hw : Wide c
        · exact ne_of_wide (wide_of_mem_charBytes hw b hb) hq
        · rw [charBytes_of_not_wide hw, List.mem_singleton] at hb
          rw [hb]
          exact hc
      rw [hskip _ hne, ih, if_neg (by simpa using hc), Option.map_map, Option.map_map]
      congr 1
      funext n
      simp only [Function.comp_apply, length_charBytes, List.take_succ_cons, byteLength]

/-- A literal is passed over. -/
theorem quoteClosing_eq (h : text.drop i = c :: rest) (hq : isQuote c = true) :
    quoteClosing text (byteOffset text i) c = some ((literalTail? c rest).map fun n => byteOffset text (i + n)) := by
  have hw := not_wide_of_isQuote hq
  rw [quoteClosing, ← byteOffset_succ_of_not_wide h hw, bytesFrom_byteOffset, drop_succ h]
  simp only [Option.bind_eq_bind, Option.bind_some, Option.pure_def]
  rw [idxOf?_bytes hw, literalTail?, if_pos hq, Option.map_map, Option.map_map]
  congr 2
  funext n
  simp only [Function.comp_apply]
  rw [← drop_succ h, ← byteOffset_add]
  congr 1
  omega

/-- The last character of a literal is its quote. -/
theorem byteOffset_behind_literal (h : text.drop i = c :: rest) {n : Nat} (hn : literalTail? c rest = some n) :
    byteOffset text (i + n) + 1 = byteOffset text (i + n + 1) := by
  obtain ⟨hq, x, r, rfl, -, rfl⟩ := literalTail?_eq_some_iff.mp hn
  have hdrop : text.drop (i + (x.length + 1)) = c :: r := by
    rw [← Nat.add_assoc, drop_add_succ h, List.drop_left]
  exact (byteOffset_succ_of_not_wide hdrop (not_wide_of_isQuote hq)).symm

/-- The literal or comment that a position starts. -/
theorem next_of_regionTail? (h : text.drop i = c :: rest) {kind : RegionKind} {n : Nat}
    (hr : regionTail? c rest = some (kind, n)) :
    i + n + 1 ≤ text.length ∧ text.drop (i + n + 1) = rest.drop n := by
  have hle := lt_of_regionTail? hr
  have hlen := length_of_drop h
  exact ⟨by omega, drop_add_succ h n⟩

theorem closingLoop_of_byte {b : Char} (stack : List Char) (hb : byte? text i = some b) :
    closingLoop text stack i = (do
      if isQuote b then
        match ← quoteClosing text i b with
        | some close => closingLoop text stack (close + 1)
        | none => return none
      else
        match ← skipComment text i with
        | some next => closingLoop text stack next
        | none =>
          if isOpener b then closingLoop text (b :: stack) (i + 1)
          else
            match openerOf? b, stack with
            | none, _ => closingLoop text stack (i + 1)
            | some _, [] => return none
            | some o, top :: outer =>
              if top ≠ o then return none
              else if outer.isEmpty then return some i
              else closingLoop text outer (i + 1)) := by
  rw [closingLoop, if_pos (lt_of_byte? hb), hb]
  simp only [Option.bind_eq_bind, Option.bind_some]
  split
  · rcases quoteClosing text i b with _ | _ | close <;> rfl
  · rcases skipComment text i with _ | _ | next <;> rfl

theorem closingLoop_wide {b : Char} (stack : List Char) (hb : byte? text i = some b) (hw : Wide b) :
    closingLoop text stack i = closingLoop text stack (i + 1) := by
  rw [closingLoop_of_byte stack hb, isQuote_of_wide hw, if_neg (by simp), skipComment_wide hb hw, isOpener_of_wide hw,
    openerOf?_of_wide hw]
  rfl

/-- At a code character of ASCII that is no quote. -/
theorem closingLoop_code (stack : List Char) (h : text.drop i = c :: rest) (hr : regionTail? c rest = none)
    (hq : ¬ isQuote c = true) (hw : ¬ Wide c) :
    closingLoop text stack (byteOffset text i) =
      if isOpener c then closingLoop text (c :: stack) (byteOffset text (i + 1))
      else
        match openerOf? c, stack with
        | none, _ => closingLoop text stack (byteOffset text (i + 1))
        | some _, [] => some none
        | some o, top :: outer =>
          if top ≠ o then some none
          else if outer.isEmpty then some (some (byteOffset text i))
          else closingLoop text outer (byteOffset text (i + 1)) := by
  rw [closingLoop_of_byte stack (byte?_byteOffset h hw), if_neg hq, skipComment_eq h, (regionTail?_eq_none_iff.mp hr).2,
    byteOffset_succ_of_not_wide h hw]
  rfl

theorem map_byteOffset (text : Text) (i k : Nat) (x : Option Nat) :
    (x.map (· + k)).map (fun m => byteOffset text (i + m)) = x.map fun m => byteOffset text (i + k + m) := by
  rw [Option.map_map]
  congr 1
  funext m
  simp only [Function.comp_apply]
  congr 1
  omega

/-- The search for a closing bracket, from a position on. -/
theorem closingLoop_eq (stack : List Char) (hi : i ≤ text.length) (h : text.drop i = rest) :
    closingLoop text stack (byteOffset text i) =
      some ((closingIn stack rest).map fun n => byteOffset text (i + n)) := by
  fun_induction closingIn stack rest generalizing i with
  | case1 stack =>
    rw [closingLoop, if_neg (by rw [byteOffset_of_le (List.drop_eq_nil_iff.mp h)]; omega)]
    rfl
  | case2 stack c rest kind n hr ih =>
    obtain ⟨hle, hdrop⟩ := next_of_regionTail? h hr
    have hstep : closingLoop text stack (byteOffset text i) = closingLoop text stack (byteOffset text (i + n + 1)) := by
      rcases regionTail?_cases hr with ⟨-, hl⟩ | ⟨-, hc⟩
      · have hq := (literalTail?_eq_some_iff.mp hl).1
        rw [closingLoop_of_byte stack (byte?_byteOffset h (not_wide_of_isQuote hq)), if_pos hq, quoteClosing_eq h hq,
          hl]
        simp only [Option.map_some, Option.bind_eq_bind, Option.bind_some, byteOffset_behind_literal h hl]
      · rw [closingLoop_of_byte stack (byte?_byteOffset h (not_wide_of_commentTail? hc)), isQuote_of_commentTail? hc,
          if_neg (by simp), skipComment_eq h, hc]
        rfl
    rw [hstep, ih hle hdrop, map_byteOffset]
    rfl
  | case3 stack c rest hr hq =>
    rw [closingLoop_of_byte stack (byte?_byteOffset h (not_wide_of_isQuote hq)), if_pos hq, quoteClosing_eq h hq,
      (regionTail?_eq_none_iff.mp hr).1]
    rfl
  | case4 stack c rest hr hq ho ih =>
    rw [closingLoop_code stack h hr hq (not_wide_of_isOpener ho), if_pos ho, ih (lt_of_drop h) (drop_succ h),
      map_byteOffset]
  | case5 stack c rest hr hq ho hc ih =>
    have hstep : closingLoop text stack (byteOffset text i) = closingLoop text stack (byteOffset text (i + 1)) := by
      by_cases hw : Wide c
      · exact step_wide h hw fun j b hb hwb => closingLoop_wide stack hb hwb
      · rw [closingLoop_code stack h hr hq hw, if_neg ho, hc]
    rw [hstep, ih (lt_of_drop h) (drop_succ h), map_byteOffset]
  | case6 c rest hr hq ho o hc =>
    rw [closingLoop_code [] h hr hq (not_wide_of_openerOf? hc), if_neg ho, hc]
    rfl
  | case7 c rest hr hq ho o top outer hc hne =>
    rw [closingLoop_code _ h hr hq (not_wide_of_openerOf? hc), if_neg ho, hc]
    simp only [if_pos hne]
    rfl
  | case8 c rest hr hq ho o top outer hc hne hempty =>
    rw [closingLoop_code _ h hr hq (not_wide_of_openerOf? hc), if_neg ho, hc]
    simp only [if_neg hne, if_pos hempty]
    rfl
  | case9 c rest hr hq ho o top outer hc hne hempty ih =>
    rw [closingLoop_code _ h hr hq (not_wide_of_openerOf? hc), if_neg ho, hc]
    simp only [if_neg hne, if_neg hempty]
    rw [ih (lt_of_drop h) (drop_succ h), map_byteOffset]

/-- The closing delimiter of the one at a position. -/
theorem findClosing_eq (text : Text) (i : Nat) :
    findClosing text (byteOffset text i) =
      some ((closingOffset? (text.drop i)).map fun n => byteOffset text (i + n)) := by
  cases h : text.drop i with
  | nil => rw [findClosing, byte?_end h]; rfl
  | cons c rest =>
    obtain ⟨hw, hb⟩ | ⟨hw, b, hb, hwb⟩ := byte?_cases h
    · rw [findClosing, hb, closingOffset?]
      simp only
      by_cases hq : isQuote c = true
      · rw [if_pos hq, if_pos hq, quoteClosing_eq h hq, literalTail?, if_pos hq]
      · rw [if_neg hq, if_neg hq]
        by_cases ho : isOpener c = true
        · rw [if_pos ho, if_pos ho, ← byteOffset_succ_of_not_wide h hw, closingLoop_eq [c] (lt_of_drop h) (drop_succ h),
            map_byteOffset]
        · rw [if_neg ho, if_neg ho]
          rfl
    · rw [findClosing, hb, closingOffset?]
      simp only [isQuote_of_wide hwb, isQuote_of_wide hw, isOpener_of_wide hwb, isOpener_of_wide hw]
      rfl

/-- A closing delimiter is a single byte. -/
theorem byteOffset_behind_closing (h : text.drop i = c :: rest) {n : Nat} (hn : closingOffset? (c :: rest) = some n) :
    byteOffset text (i + n) + 1 = byteOffset text (i + n + 1) := by
  rw [closingOffset?] at hn
  split at hn
  · next hq => exact byteOffset_behind_literal h (by rw [literalTail?, if_pos hq]; exact hn)
  · split at hn
    · obtain ⟨m, hm, rfl⟩ := Option.map_eq_some_iff.mp hn
      obtain ⟨ps, d, qs, hp, rfl, -, hd⟩ := closingIn_iff (s := []).mp hm
      have hrest : rest.drop (textOf ps).length = d :: textOf qs := by
        rw [← textOf_pieces rest, hp, textOf_append, List.drop_left, textOf_cons]
        rfl
      have hdrop : text.drop (i + ((textOf ps).length + 1)) = d :: textOf qs := by
        rw [Nat.add_comm (textOf ps).length, ← Nat.add_assoc, ← List.drop_drop, drop_succ h, hrest]
      exact (byteOffset_succ_of_not_wide hdrop (not_wide_of_openerOf? hd)).symm
    · cases hn

/-- What a position starts is passed over whole. -/
theorem skipLiteral_eq (h : text.drop i = c :: rest) :
    skipLiteral text (byteOffset text i) = some ((literalTail? c rest).map fun n => byteOffset text (i + n + 1)) := by
  obtain ⟨hw, hb⟩ | ⟨hw, b, hb, hwb⟩ := byte?_cases h
  · rw [skipLiteral, hb]
    simp only
    by_cases hq : isQuote c = true
    · rw [if_pos hq, findClosing, hb]
      simp only [if_pos hq, quoteClosing_eq h hq, Option.bind_eq_bind, Option.bind_some, Option.pure_def,
        Option.map_map]
      congr 1
      refine Option.map_congr fun n hn => ?_
      exact byteOffset_behind_literal h hn
    · rw [if_neg hq, literalTail?, if_neg hq]
      rfl
  · rw [skipLiteral, hb, literalTail?]
    simp only [isQuote_of_wide hwb, isQuote_of_wide hw]
    rfl

/-- A literal or comment is passed over whole. -/
theorem skipOpaque_eq (h : text.drop i = c :: rest) :
    skipOpaque text (byteOffset text i) = some ((regionTail? c rest).map fun r => byteOffset text (i + r.2 + 1)) := by
  rw [skipOpaque, skipLiteral_eq h, regionTail?]
  cases hl : literalTail? c rest with
  | some n => rfl
  | none =>
    simp only [Option.map_none, Option.bind_eq_bind, Option.bind_some, skipComment_eq h, Option.map_map]
    rfl

/-- At a byte beyond ASCII no literal starts. -/
theorem skipLiteral_wide {b : Char} (hb : byte? text i = some b) (hw : Wide b) : skipLiteral text i = some none := by
  rw [skipLiteral, hb]
  simp only [isQuote_of_wide hw]
  rfl

/-- At a byte beyond ASCII no literal or comment starts. -/
theorem skipOpaque_wide {b : Char} (hb : byte? text i = some b) (hw : Wide b) : skipOpaque text i = some none := by
  rw [skipOpaque, skipLiteral_wide hb hw]
  exact skipComment_wide hb hw

/-! ## Searches go on -/

/-- A delimiter is not closed in front of it. -/
theorem findClosing_le (h : findClosing text i = some (some j)) : i ≤ j := by
  cases hb : byte? text i with
  | none =>
    rw [findClosing, hb] at h
    cases h
  | some b =>
    by_cases hw : Wide b
    · rw [findClosing, hb] at h
      simp only [isQuote_of_wide hw, isOpener_of_wide hw] at h
      cases h
    · obtain ⟨k, rest, rfl, -⟩ := exists_position hb hw
      rw [findClosing_eq, Option.some.injEq] at h
      obtain ⟨n, -, rfl⟩ := Option.map_eq_some_iff.mp h
      exact byteOffset_mono (Nat.le_add_right ..)

/-- A literal is not empty. -/
theorem skipLiteral_lt (h : skipLiteral text i = some (some j)) : i < j := by
  rw [skipLiteral] at h
  split at h
  · cases h
  · split at h
    · obtain ⟨close, hclose, hj⟩ := Option.bind_eq_some_iff.mp h
      obtain ⟨n, rfl, rfl⟩ := Option.map_eq_some_iff.mp (Option.some.inj hj)
      exact Nat.lt_succ_of_le (findClosing_le hclose)
    · cases h

/-- A literal or comment is not empty. -/
theorem skipOpaque_lt (h : skipOpaque text i = some (some j)) : i < j := by
  obtain ⟨literal, hl, h⟩ := Option.bind_eq_some_iff.mp h
  cases literal with
  | some next =>
    obtain rfl := Option.some.inj (Option.some.inj h)
    exact skipLiteral_lt hl
  | none => exact (skipComment_lt h).1

end

end SqlDialect.Bytes
