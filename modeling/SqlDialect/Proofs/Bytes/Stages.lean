import SqlDialect.Comment
import SqlDialect.FunctionName
import SqlDialect.Qualifier
import SqlDialect.TimeDifference
import SqlDialect.Proofs.Bytes.Base
import SqlDialect.Proofs.Comment

/-!
# The other stages by byte offsets

The stages behind the intervals copy the text between the places that they change, or replace a range of it and go on
in the new text. Their markers and the text between the arguments of a call have no offsets.

* `differenceLoop_zero`, `renameAll_eq`, `stripQualifiers_eq`, `commentLoop_zero`: each stage gives the same text.
-/

namespace SqlDialect.Bytes

open Text

variable {text rest : Text} {c : Char} {i j : Nat}

/-! ## Timestamp differences -/

/-- The call read from the text between its parentheses. -/
def readDifference (call arguments : Text) : Checked (Except StageError TimeDifference) := do
  match ← splitTopLevel arguments ',' with
  | [unit, first, last] =>
    let d : TimeDifference := ⟨Text.trim unit, Text.trim first, Text.trim last⟩
    if d.first.isEmpty || d.last.isEmpty then return .error ⟨.argumentEmpty, call⟩
    else if Text.same d.unit TimeDifference.unitName then return .ok d
    else return .error ⟨.differenceUnit d.unit, call⟩
  | parts => return .error ⟨.argumentCount parts.length, call⟩

/-- The text with the call converted whose name and whose parenthesis stand at two offsets. -/
def replaceCall (text : Text) (i opener : Nat) : Checked (Except StageError Text) := do
  match ← findClosing text opener with
  | none => return .error ⟨.callUnterminated, ← snippet text i (byteLength text)⟩
  | some close =>
    let call ← slice text i (close + 1)
    let arguments ← slice text (opener + 1) close
    match ← readDifference call arguments with
    | .error e => return .error e
    | .ok d => return .ok (← replaceRange text i (close + 1) d.render)

theorem readDifference_eq (call arguments : Text) :
    readDifference call arguments = some (TimeDifference.read call arguments) := by
  rw [readDifference, splitTopLevel_eq (by decide), TimeDifference.read]
  simp only [Option.bind_eq_bind, Option.bind_some]
  rcases SqlDialect.splitTopLevel arguments ',' with _ | ⟨unit, _ | ⟨first, _ | ⟨last, _ | ⟨_, _⟩⟩⟩⟩
  case cons.cons.cons.nil =>
    simp only
    split
    · rfl
    · split <;> rfl
  all_goals rfl

theorem startsAscii_functionName : StartsAscii TimeDifference.functionName :=
  ⟨'t', "imestampdiff".toList, by decide +kernel, by decide⟩

/-- A call is replaced as a whole. -/
theorem replaceCall_eq {inner : Text} {k : Nat} (h : text.drop (i + k) = '(' :: inner) :
    replaceCall text (byteOffset text i) (byteOffset text (i + k)) =
      some (match closingOffset? ('(' :: inner) with
        | none => .error ⟨.callUnterminated, text.drop i⟩
        | some close =>
          match TimeDifference.read ((text.drop i).take (k + close + 1)) (inner.take (close - 1)) with
          | .error e => .error e
          | .ok d => .ok (text.take i ++ (d.render ++ inner.drop close))) := by
  have hlt := lt_of_drop h
  rw [replaceCall, findClosing_eq, h]
  cases hc : closingOffset? ('(' :: inner) with
  | none =>
    have hsnippet := snippet_eq (by omega : i ≤ text.length) (Nat.le_refl _)
    rw [byteOffset_of_le (Nat.le_refl _), Text.slice, List.take_length] at hsnippet
    simp only [Option.map_none, Option.bind_eq_bind, Option.bind_some, hsnippet]
    rfl
  | some close =>
    have hpos : 0 < close := by
      rw [closingOffset?, if_neg (by decide), if_pos (by decide)] at hc
      obtain ⟨m, -, rfl⟩ := Option.map_eq_some_iff.mp hc
      exact Nat.succ_pos m
    have hclose := closingOffset?_lt hc
    have hlen := length_of_drop h
    rw [List.length_cons] at hclose
    have hcall : Text.slice text i (i + k + close + 1) = (text.drop i).take (k + close + 1) := by
      rw [← slice_take]
      simp only [Nat.add_assoc]
    have harguments : Text.slice text (i + k + 1) (i + k + close) = inner.take (close - 1) := by
      rw [← drop_succ h, ← slice_take]
      congr 1
      omega
    simp only [Option.map_some, Option.bind_eq_bind, Option.bind_some, byteOffset_behind_closing h hc,
      ← byteOffset_succ_of_not_wide h (by decide)]
    rw [slice_byteOffset (by omega) (by omega), slice_byteOffset (by omega) (by omega), hcall, harguments]
    simp only [Option.bind_some, readDifference_eq]
    cases TimeDifference.read ((text.drop i).take (k + close + 1)) (inner.take (close - 1)) with
    | error e => rfl
    | ok d =>
      simp only
      rw [replaceRange_byteOffset (by omega) (by omega), drop_add_succ h, List.append_assoc]
      rfl

/-- A call holds more of the measured letters than what it is converted to: those of its name are gone. -/
theorem replaceCall_countP_lt {inner replaced : Text} {before : Option Char} {k : Nat}
    (hs : startsKeyword TimeDifference.functionName before (text.drop i) = true)
    (hk : TimeDifference.functionName.length ≤ k) (h : text.drop (i + k) = '(' :: inner)
    (hr : replaceCall text (byteOffset text i) (byteOffset text (i + k)) = some (.ok replaced)) :
    replaced.countP TimeDifference.isMeasured < text.countP TimeDifference.isMeasured := by
  rw [replaceCall_eq h, Option.some.injEq] at hr
  split at hr
  · cases hr
  · next close hc =>
    split at hr
    · cases hr
    · next d hd =>
      cases hr
      have hname := TimeDifference.countP_drop_lt hs
      have hrender := TimeDifference.render_countP_le hd
      -- what stands between the parentheses and behind them is part of what stands behind the name
      have hinner : (inner.take (close - 1)).countP TimeDifference.isMeasured +
          (inner.drop close).countP TimeDifference.isMeasured ≤ inner.countP TimeDifference.isMeasured := by
        have hsub : inner.drop close = (inner.drop (close - 1)).drop (close - (close - 1)) := by
          rw [List.drop_drop]
          congr 1
          omega
        rw [hsub]
        conv => rhs; rw [← List.take_append_drop (close - 1) inner, List.countP_append]
        exact Nat.add_le_add_left ((List.drop_sublist _ _).countP_le) _
      have hbehind : inner.countP TimeDifference.isMeasured ≤
          (text.drop (i + TimeDifference.functionName.length)).countP TimeDifference.isMeasured := by
        have hsub : inner = (text.drop (i + TimeDifference.functionName.length)).drop
            (k - TimeDifference.functionName.length + 1) := by
          rw [List.drop_drop, ← drop_succ h]
          congr 1
          omega
        rw [hsub]
        exact (List.drop_sublist _ _).countP_le
      conv => rhs; rw [← List.take_append_drop i text]
      simp only [List.countP_append]
      omega

/-- A round of the conversion takes measured letters out of the text. -/
theorem replaceCall_found_lt {cursor opener : Nat} {after replaced : Text}
    (hk : findKeyword text TimeDifference.functionName cursor = some (some i))
    (ha : sliceFrom text (i + byteLength TimeDifference.functionName) = some after)
    (ho : i + byteLength TimeDifference.functionName + ((bytes after).takeWhile isBlank).length = opener)
    (hb : byte? text opener = some '(') (hr : replaceCall text i opener = some (.ok replaced)) :
    replaced.countP TimeDifference.isMeasured < text.countP TimeDifference.isMeasured := by
  obtain ⟨k, hle, rfl, hs⟩ := findKeyword_position startsAscii_functionName hk
  have hstarts := starts_of_startsKeyword hs
  have hname := add_length_le_of_starts TimeDifference.functionName_ne_nil hstarts
  rw [byteOffset_add_word hstarts, sliceFrom_byteOffset hname, Option.some.injEq] at ha
  subst ha
  rw [byteOffset_add_word hstarts, byteOffset_behind (fun c hc => isBlank_of_wide hc), Nat.add_assoc] at ho
  subst ho
  rw [byte?_eq_some_iff (by decide)] at hb
  obtain ⟨inner, hinner⟩ := List.head?_eq_some_iff.mp hb
  exact replaceCall_countP_lt hs (Nat.le_add_right ..) hinner hr

/-- The text with the calls converted that stand behind an offset. -/
def differenceLoop (text : Text) (cursor : Nat) : Checked (Except StageError Text) :=
  match _k : findKeyword text TimeDifference.functionName cursor with
  | none => none
  | some none => return .ok text
  | some (some i) =>
    let name := i + byteLength TimeDifference.functionName
    match _a : sliceFrom text name with
    | none => none
    | some after =>
      let opener := name + ((bytes after).takeWhile isBlank).length
      if _b : byte? text opener = some '(' then
        match _r : replaceCall text i opener with
        | none => none
        | some (.error e) => return .error e
        | some (.ok replaced) => differenceLoop replaced i
      else differenceLoop text name
termination_by (text.countP TimeDifference.isMeasured, byteLength text - cursor)
decreasing_by
  · exact Prod.Lex.left _ _ (replaceCall_found_lt _k _a rfl _b _r)
  · have hpos : 0 < byteLength TimeDifference.functionName := by decide +kernel
    have := findKeyword_le _k
    exact Prod.Lex.right _ (by omega)

theorem differenceLoop_of_found (h : findKeyword text TimeDifference.functionName i = some (some j)) :
    differenceLoop text i = (do
      let name := j + byteLength TimeDifference.functionName
      let after ← sliceFrom text name
      let opener := name + ((bytes after).takeWhile isBlank).length
      if byte? text opener = some '(' then
        match ← replaceCall text j opener with
        | .error e => return .error e
        | .ok replaced => differenceLoop replaced j
      else differenceLoop text name) := by
  rw [differenceLoop, h]
  simp only
  rcases sliceFrom text (j + byteLength TimeDifference.functionName) with _ | after
  · rfl
  · simp only [Option.bind_eq_bind, Option.bind_some]
    split
    · rcases replaceCall text j (j + byteLength TimeDifference.functionName +
        ((bytes after).takeWhile isBlank).length) with _ | _ | replaced <;> rfl
    · rfl

/-- What is done where the name is found. -/
theorem differenceLoop_name {done rest : Text} {n : Nat}
    (hk : SqlDialect.findKeyword TimeDifference.functionName done.getLast? rest = some n) :
    differenceLoop (done ++ rest) (byteLength done) =
      let after := rest.drop (n + TimeDifference.functionName.length)
      if (after.dropWhile isBlank).head? = some '(' then do
        match ← replaceCall (done ++ rest) (byteOffset (done ++ rest) (done.length + n)) (byteOffset (done ++ rest)
            (done.length + n + (TimeDifference.functionName.length + (after.takeWhile isBlank).length))) with
        | .error e => return .error e
        | .ok text => differenceLoop text (byteOffset (done ++ rest) (done.length + n))
      else differenceLoop (done ++ rest) (byteLength (done ++ rest.take (n + TimeDifference.functionName.length))) := by
  have hs := starts_of_findKeyword done hk
  have hname := add_length_le_of_starts TimeDifference.functionName_ne_nil hs
  have hafter : (done ++ rest).drop (done.length + n + TimeDifference.functionName.length) =
      rest.drop (n + TimeDifference.functionName.length) := by rw [Nat.add_assoc, drop_left_add]
  have hopener := byteOffset_behind (fun c hc => isBlank_of_wide hc) (done ++ rest)
    (done.length + n + TimeDifference.functionName.length)
  have hbyte := byte?_behind_blanks (done ++ rest) (done.length + n + TimeDifference.functionName.length)
  rw [hafter] at hopener hbyte
  rw [differenceLoop_of_found (findKeyword_found startsAscii_functionName hk), ← byteOffset_left_add done rest]
  simp only [Option.bind_eq_bind, Option.bind_some, byteOffset_add_word hs, sliceFrom_byteOffset hname,
    hafter, hopener, hbyte]
  simp only [Nat.add_assoc]

/-- What is done with a call. -/
theorem differenceLoop_call {done rest inner : Text} {n : Nat}
    (hk : SqlDialect.findKeyword TimeDifference.functionName done.getLast? rest = some n)
    (ha : (rest.drop (n + TimeDifference.functionName.length)).dropWhile isBlank = '(' :: inner) :
    differenceLoop (done ++ rest) (byteLength done) =
      let blanks := (rest.drop (n + TimeDifference.functionName.length)).takeWhile isBlank
      match closingOffset? ('(' :: inner) with
      | none => some (.error ⟨.callUnterminated, rest.drop n⟩)
      | some close =>
        match TimeDifference.read ((rest.drop n).take (TimeDifference.functionName.length + blanks.length + close + 1))
            (inner.take (close - 1)) with
        | .error e => some (.error e)
        | .ok d =>
          let converted := done ++ rest.take n
          differenceLoop (converted ++ (d.render ++ inner.drop close)) (byteLength converted) := by
  have hopen : (done ++ rest).drop (done.length + n + (TimeDifference.functionName.length +
      ((rest.drop (n + TimeDifference.functionName.length)).takeWhile isBlank).length)) = '(' :: inner := by
    rw [Nat.add_assoc, drop_left_add, ← Nat.add_assoc, drop_blanks, ha]
  rw [differenceLoop_name hk]
  simp only [ha, List.head?_cons, if_true, Option.bind_eq_bind]
  rw [replaceCall_eq hopen]
  simp only [drop_left_add, take_left_add, byteOffset_left_add, Option.bind_some]
  cases closingOffset? ('(' :: inner) with
  | none => rfl
  | some close =>
    simp only
    cases TimeDifference.read ((rest.drop n).take (TimeDifference.functionName.length +
      ((rest.drop (n + TimeDifference.functionName.length)).takeWhile isBlank).length + close + 1))
      (inner.take (close - 1)) <;> rfl

/-- The conversion of calls. -/
theorem differenceLoop_eq (done rest : Text) :
    differenceLoop (done ++ rest) (byteLength done) = some (TimeDifference.convertFrom done rest) := by
  fun_induction TimeDifference.convertFrom done rest with
  | case1 done rest hk =>
    rw [differenceLoop, findKeyword_append startsAscii_functionName, hk]
    rfl
  | case2 done rest n hk after =>
    rename_i inner ha hc
    rw [differenceLoop_call hk ha, hc]
  | case3 done rest n hk after blanks =>
    rename_i inner ha close hc call arguments e hd
    rw [differenceLoop_call hk ha, hc]
    simp only
    rw [hd]
  | case4 done rest n hk after blanks =>
    rename_i inner ha close hc call arguments d hd ih
    rw [differenceLoop_call hk ha, hc, ← ih]
    simp only
    rw [hd]
  | case5 done rest n hk after =>
    rename_i ha ih
    have hno : ¬ (after.dropWhile isBlank).head? = some '(' := by
      intro hhead
      obtain ⟨inner, hinner⟩ : ∃ inner, after.dropWhile isBlank = '(' :: inner := by
        cases hd : after.dropWhile isBlank with
        | nil => rw [hd] at hhead; cases hhead
        | cons c inner => rw [hd] at hhead; exact ⟨inner, by rw [Option.some.inj hhead]⟩
      exact ha inner hinner
    rw [differenceLoop_name hk, ← ih, List.append_assoc, List.take_append_drop]
    exact if_neg hno

/-- The conversion of the calls of a whole text. -/
theorem differenceLoop_zero (text : Text) : differenceLoop text 0 = some (TimeDifference.convert text) :=
  differenceLoop_eq [] text

/-! ## Function names -/

/-- The text with the calls of one function renamed that stand behind an offset. -/
def renameLoop (r : FunctionName.Rename) (text : Text) (cursor : Nat) : Checked Text :=
  match _k : findKeyword text r.old cursor with
  | none => none
  | some none => return text
  | some (some i) =>
    -- an empty name would be found over and over
    if _o : r.old = [] then none
    else
      match _r : replaceRange text i (i + byteLength r.old) r.new with
      | none => none
      | some replaced => renameLoop r replaced (i + byteLength r.new)
termination_by byteLength text - cursor
decreasing_by
  have := byteLength_pos _o
  have := findKeyword_le _k
  have := byteLength_replaceRange _r
  omega

theorem renameLoop_of_found {r : FunctionName.Rename} (hold : r.old ≠ [])
    (h : findKeyword text r.old i = some (some j)) :
    renameLoop r text i = (do
      let replaced ← replaceRange text j (j + byteLength r.old) r.new
      renameLoop r replaced (j + byteLength r.new)) := by
  rw [renameLoop, h]
  simp only [dif_neg hold]
  rcases replaceRange text j (j + byteLength r.old) r.new with _ | replaced <;> rfl

/-- The text with the functions of a list renamed, one after the other. -/
def renameAll : List FunctionName.Rename → Text → Checked Text
  | [], text => return text
  | r :: rs, text => do
    let text ← renameLoop r text 0
    renameAll rs text

/-- The renaming of one function. -/
theorem renameLoop_eq {r : FunctionName.Rename} (hold : StartsAscii r.old) (hnew : r.new ≠ []) (done rest : Text) :
    renameLoop r (done ++ rest) (byteLength done) = some (done ++ FunctionName.renameFrom r done.getLast? rest) := by
  generalize hbefore : done.getLast? = before
  fun_induction FunctionName.renameFrom r before rest generalizing done with
  | case1 before rest hk =>
    rw [renameLoop, findKeyword_append hold, hbefore, hk]
    rfl
  | case2 before rest n hk hr =>
    obtain ⟨d, w, he, -⟩ := hold
    rw [hr] at he
    cases he
  | case3 before rest n hk hr ih =>
    subst hbefore
    have hs := starts_of_findKeyword done hk
    have hle : done.length + n + r.old.length ≤ (done ++ rest).length := by
      have := findKeyword_add_le hk
      rw [List.length_append]
      omega
    have hbehind : (done ++ rest).drop (done.length + n + r.old.length) = rest.drop (n + r.old.length) := by
      rw [Nat.add_assoc, drop_left_add]
    have hcursor : byteLength (done ++ rest.take n) + byteLength r.new = byteLength (done ++ rest.take n ++ r.new) := by
      rw [byteLength_append _ r.new]
    have hlast : (done ++ rest.take n ++ r.new).getLast? = r.new.getLast? := by
      rw [List.getLast?_append]
      cases hl : r.new.getLast? with
      | none => exact absurd (List.getLast?_eq_none_iff.mp hl) hnew
      | some c => rfl
    rw [renameLoop_of_found hr (findKeyword_found hold hk)]
    simp only [Option.bind_eq_bind, byteOffset_add_word hs]
    rw [replaceRange_byteOffset (Nat.le_add_right ..) hle, take_left_add, hbehind, byteOffset_left_add,
      Option.bind_some, hcursor, ih _ hlast]
    simp only [List.append_assoc]

/-- The renaming of all functions. -/
theorem renameAll_eq (text : Text) : renameAll FunctionName.renames text = some (FunctionName.convert text) := by
  have hrenames : ∀ r ∈ FunctionName.renames, r.old.head?.any (fun d => decide (¬ Wide d)) = true ∧ r.new ≠ [] := by
    decide +kernel
  rw [FunctionName.convert]
  generalize FunctionName.renames = rs at hrenames
  induction rs generalizing text with
  | nil => rfl
  | cons r rs ih =>
    obtain ⟨hhead, hnew⟩ := hrenames r List.mem_cons_self
    have hr := renameLoop_eq (startsAscii_of_head? hhead) hnew [] text
    rw [List.nil_append, byteLength] at hr
    rw [renameAll, hr]
    exact ih _ fun r hr => hrenames r (List.mem_cons_of_mem _ hr)

/-! ## Schema qualifiers -/

/-- The qualifier that stands at an offset where a name starts. -/
def qualifierAt (qs : List Text) (text : Text) (i : Nat) : Checked (Option Text) := do
  let before ← byteBefore text i
  if Qualifier.startsName before then findWord text i qs else return none

/-- The offset behind the string literal that starts at an offset with the byte `b`, if one does. -/
def skipString (text : Text) (i : Nat) (b : Char) : Checked (Option Nat) :=
  if b = '\'' ∨ b = '"' then skipLiteral text i else return none

theorem ne_nil_of_mem_spellings {schema q : Text} (h : q ∈ Qualifier.spellings schema) : q ≠ [] := by
  simp only [Qualifier.spellings, List.mem_cons, List.not_mem_nil, or_false] at h
  rcases h with rfl | rfl <;> simp

theorem qualifierAt_pos {schema q : Text} (h : qualifierAt (Qualifier.spellings schema) text i = some (some q)) :
    0 < byteLength q := by
  obtain ⟨before, -, h⟩ := Option.bind_eq_some_iff.mp h
  split at h
  · exact findWord_pos (fun q => ne_nil_of_mem_spellings) h
  · cases h

theorem skipString_lt {b : Char} (h : skipString text i b = some (some j)) : i < j := by
  unfold skipString at h
  split at h
  · exact skipLiteral_lt h
  · cases h

/-- The text from the offset `last` on without its qualifiers, when the offset `i` is reached. -/
def stripLoop (schema text : Text) (last i : Nat) : Checked Qualifier.Stripped :=
  if i < byteLength text then
    match _q : qualifierAt (Qualifier.spellings schema) text i with
    | none => none
    | some (some q) => do
      let kept ← slice text last i
      let after ← stripLoop schema text (i + byteLength q) (i + byteLength q)
      return ⟨kept ++ after.text, after.removed + 1⟩
    | some none => do
      let b ← byte? text i
      match _s : skipString text i b with
      | some (some next) => stripLoop schema text last next
      | some none => stripLoop schema text last (i + 1)
      | none => none
  else do
    let kept ← sliceFrom text last
    return ⟨kept, 0⟩
termination_by byteLength text - i
decreasing_by
  · have := qualifierAt_pos _q
    omega
  · have := skipString_lt _s
    omega
  · omega

/-- The text without the qualifiers of the schema. -/
def stripQualifiers (schema text : Text) : Checked Qualifier.Stripped :=
  if schema.isEmpty then return ⟨text, 0⟩ else stripLoop schema text 0 0

theorem qualifierAt_eq (qs : List Text) (hi : i ≤ text.length) :
    qualifierAt qs text (byteOffset text i) =
      some (if Qualifier.startsName (text.take i).getLast? then
        qs.find? (startsKeyword · (text.take i).getLast? (text.drop i)) else none) := by
  have hwide : ∀ c, Wide c → (isWord c || decide (c = '.')) = true := fun c hc => by rw [isWord_of_wide hc]; rfl
  obtain ⟨b, hb, hany⟩ := byteBefore_any hwide hi
  have hstarts : Qualifier.startsName b = Qualifier.startsName (text.take i).getLast? := by
    rw [Qualifier.startsName, hany]
    rfl
  rw [qualifierAt, hb]
  simp only [Option.bind_eq_bind, Option.bind_some, hstarts, findWord_eq qs hi]
  cases Qualifier.startsName (text.take i).getLast? <;> rfl

/-- A string literal is passed over whole. -/
theorem skipString_eq (h : text.drop i = c :: rest) {b : Char} (hb : byte? text (byteOffset text i) = some b) :
    skipString text (byteOffset text i) b =
      some ((Qualifier.stringTail? c rest).map fun n => byteOffset text (i + n + 1)) := by
  rw [skipString, Qualifier.stringTail?]
  obtain ⟨-, hc⟩ | ⟨hw, b', hb', hwb⟩ := byte?_cases h
  · obtain rfl := Option.some.inj (hb.symm.trans hc)
    by_cases hq : b = '\'' ∨ b = '"'
    · have hne : b ≠ '\x60' := by rcases hq with rfl | rfl <;> decide
      rw [if_pos hq, if_neg hne, skipLiteral_eq h]
    · rw [if_neg hq]
      by_cases hb : b = '\x60'
      · rw [if_pos hb]
        rfl
      · have hno : isQuote b = false := by
          simp only [not_or] at hq
          simp [isQuote, hq, hb]
        rw [if_neg hb, literalTail?, hno]
        rfl
  · obtain rfl := Option.some.inj (hb.symm.trans hb')
    have hno : ¬ (b = '\'' ∨ b = '"') := by rintro (rfl | rfl) <;> exact absurd hwb (by decide)
    rw [if_neg hno, if_neg (ne_of_wide hw (by decide)), literalTail?, isQuote_of_wide hw]
    rfl

/-- Within a character no name starts. -/
theorem stripLoop_within {schema : Text} {last : Nat} {a b : Char} (ha : byte? text i = some a) (hwa : Wide a)
    (hb : byte? text (i + 1) = some b) (hwb : Wide b) :
    stripLoop schema text last (i + 1) = stripLoop schema text last (i + 2) := by
  have hminus : minus (i + 1) 1 = some i := minus_of_le (Nat.succ_pos i)
  have hqualifier : qualifierAt (Qualifier.spellings schema) text (i + 1) = some none := by
    rw [qualifierAt, byteBefore, if_pos (Nat.succ_pos i), hminus]
    simp only [Option.bind_eq_bind, Option.bind_some, ha, Option.pure_def, Qualifier.startsName, Option.any_some,
      isWord_of_wide hwa]
    rfl
  have hstring : skipString text (i + 1) b = some none := by
    rw [skipString, if_neg]
    · rfl
    · rintro (rfl | rfl) <;> exact absurd hwb (by decide)
  rw [stripLoop, if_pos (lt_of_byte? hb), hqualifier, hb]
  simp only [Option.bind_eq_bind, Option.bind_some]
  rw [hstring]

theorem stringTail?_le {n : Nat} (h : Qualifier.stringTail? c rest = some n) : n ≤ rest.length := by
  unfold Qualifier.stringTail? at h
  split at h
  · cases h
  · exact lt_of_regionTail? (by rw [regionTail?, h] : regionTail? c rest = some (.literal, n))

/-- At a qualifier. -/
theorem stripLoop_qualifier {schema : Text} {last : Nat} {q : Text} (h : text.drop i = c :: rest)
    (hq : qualifierAt (Qualifier.spellings schema) text (byteOffset text i) = some (some q)) :
    stripLoop schema text last (byteOffset text i) = (do
      let kept ← slice text last (byteOffset text i)
      let after ← stripLoop schema text (byteOffset text i + byteLength q) (byteOffset text i + byteLength q)
      return ⟨kept ++ after.text, after.removed + 1⟩) := by
  rw [stripLoop, if_pos (byteOffset_lt_length (lt_of_drop h)), hq]

/-- Where no qualifier stands. -/
theorem stripLoop_other {schema : Text} {last : Nat} (h : text.drop i = c :: rest)
    (hq : qualifierAt (Qualifier.spellings schema) text (byteOffset text i) = some none) :
    stripLoop schema text last (byteOffset text i) =
      match Qualifier.stringTail? c rest with
      | some n => stripLoop schema text last (byteOffset text (i + n + 1))
      | none => stripLoop schema text last (byteOffset text i + 1) := by
  obtain ⟨b, hb⟩ := exists_byte? h
  rw [stripLoop, if_pos (byteOffset_lt_length (lt_of_drop h)), hq, hb]
  simp only [Option.bind_eq_bind, Option.bind_some]
  rw [skipString_eq h hb]
  cases Qualifier.stringTail? c rest <;> rfl

/-- Dropping qualifiers from a position on. -/
theorem stripLoop_eq {schema : Text} (hji : j ≤ i) (hi : i ≤ text.length)
    (h : text.drop i = rest) :
    stripLoop schema text (byteOffset text j) (byteOffset text i) =
      some ⟨Text.slice text j i ++ (Qualifier.stripFrom (Qualifier.spellings schema) (text.take i).getLast? rest).text,
        (Qualifier.stripFrom (Qualifier.spellings schema) (text.take i).getLast? rest).removed⟩ := by
  generalize hbefore : (text.take i).getLast? = before
  fun_induction Qualifier.stripFrom (Qualifier.spellings schema) before rest generalizing i j with
  | case1 before =>
    have hlen := List.drop_eq_nil_iff.mp h
    rw [stripLoop, if_neg (by rw [byteOffset_of_le hlen]; omega), sliceFrom_byteOffset (Nat.le_trans hji hi),
      Text.slice, List.take_of_length_le hlen]
    simp
  | case2 before c rest q hq =>
    rename_i n after ih
    subst hbefore
    simp only [dite_eq_ite] at hq
    have hmem : q ∈ Qualifier.spellings schema ∧ Text.starts q (c :: rest) = true := by
      split at hq
      · have hfound := List.find?_some hq
        exact ⟨List.mem_of_find?_eq_some hq, starts_of_startsKeyword hfound⟩
      · cases hq
    have hpos := List.length_pos_iff.mpr (ne_nil_of_mem_spellings hmem.1)
    have hn : n = q.length - 1 := rfl
    have hle := starts_length hmem.2
    rw [List.length_cons] at hle
    obtain ⟨hnext, hdrop, -⟩ := behind_tail h (n := n) (by omega)
    have hoffset : byteOffset text i + byteLength q = byteOffset text (i + n + 1) := by
      rw [byteOffset_add_word (by rw [h]; exact hmem.2)]
      congr 1
      omega
    rw [stripLoop_qualifier h (by rw [qualifierAt_eq _ hi, h, hq]), slice_byteOffset hji hi]
    simp only [Option.bind_eq_bind, Option.bind_some, hoffset]
    rw [ih (Nat.le_refl _) hnext hdrop (getLast?_take_succ h n)]
    simp [Text.slice, after]
  | case3 before c rest hq n hn =>
    rename_i after ih
    subst hbefore
    simp only [dite_eq_ite] at hq
    obtain ⟨hnext, hdrop, -⟩ := behind_tail h (stringTail?_le hn)
    rw [stripLoop_other h (by rw [qualifierAt_eq _ hi, h, hq]), hn]
    simp only
    rw [ih (by omega) hnext hdrop (getLast?_take_succ h n), slice_add h hji, List.append_assoc]
  | case4 before c rest hq hn =>
    rename_i after ih
    subst hbefore
    simp only [dite_eq_ite] at hq
    obtain ⟨hnext, hdrop, -⟩ := behind_tail h (Nat.zero_le _)
    have hstep : stripLoop schema text (byteOffset text j) (byteOffset text i + 1) =
        stripLoop schema text (byteOffset text j) (byteOffset text (i + 1)) := by
      by_cases hw : Wide c
      · exact step_wide_tail h hw fun _ _ _ => stripLoop_within
      · rw [byteOffset_succ_of_not_wide h hw]
    rw [stripLoop_other h (by rw [qualifierAt_eq _ hi, h, hq]), hn]
    simp only
    rw [hstep, ih (by omega) hnext hdrop (getLast?_take_next h), slice_next h hji, List.append_assoc]
    rfl

/-- Dropping the qualifiers of a whole text. -/
theorem stripQualifiers_eq (schema text : Text) : stripQualifiers schema text = some (Qualifier.strip schema text) := by
  rw [stripQualifiers, Qualifier.strip]
  split
  · rfl
  · have h : stripLoop schema text (byteOffset text 0) (byteOffset text 0) = _ :=
      stripLoop_eq (Nat.le_refl 0) (Nat.zero_le text.length) List.drop_zero
    rw [byteOffset_zero, List.take_zero, List.getLast?_nil] at h
    rw [h]
    simp [Text.slice]

/-! ## Line comments -/

theorem lineLength_hash (rest : Text) : lineLength ('#' :: rest) = lineLength rest + 1 := by
  rw [lineLength, if_neg (by decide)]

theorem lineEnd_lt (hb : byte? text i = some '#') (h : lineEnd text i = some j) : i < j := by
  obtain ⟨k, rest, rfl, hdrop⟩ := exists_position hb (by decide)
  have hk := lt_of_drop hdrop
  rw [lineEnd_eq (Nat.le_of_lt hk), hdrop, lineLength_hash, Option.some.injEq] at h
  rw [← h]
  exact Nat.lt_of_lt_of_le (byteOffset_lt_succ hk) (byteOffset_mono (by omega))

/-- The text from the offset `last` on with its line comments as blocks, when the offset `i` is reached. -/
def commentLoop (text : Text) (last i : Nat) : Checked Text :=
  if i < byteLength text then
    match _b : byte? text i with
    | none => none
    | some b =>
      if _m : b = '#' then
        match _l : lineEnd text i with
        | none => none
        | some stop => do
          let final ← minus stop 1
          let bodyEnd := if (← byte? text final) = '\r' then final else stop
          let kept ← slice text last i
          let body ← slice text (i + 1) bodyEnd
          let after ← commentLoop text bodyEnd stop
          return kept ++ (['/', '*'] ++ Comment.breakEnds body ++ ['*', '/'] ++ after)
      else
        match _h : skipOpaque text i with
        | some (some next) => commentLoop text last next
        | some none => commentLoop text last (i + 1)
        | none => none
  else sliceFrom text last
termination_by byteLength text - i
decreasing_by
  · subst _m
    have := lineEnd_lt _b _l
    omega
  · have := skipOpaque_lt _h
    omega
  · omega

theorem commentLoop_of_byte {last : Nat} {b : Char} (hb : byte? text i = some b) (hne : b ≠ '#') :
    commentLoop text last i = (do
      match ← skipOpaque text i with
      | some next => commentLoop text last next
      | none => commentLoop text last (i + 1)) := by
  rw [commentLoop, if_pos (lt_of_byte? hb), hb]
  simp only [dif_neg hne]
  rcases skipOpaque text i with _ | _ | next <;> rfl

theorem commentLoop_of_mark {last : Nat} (hb : byte? text i = some '#') :
    commentLoop text last i = (do
      let stop ← lineEnd text i
      let final ← minus stop 1
      let bodyEnd := if (← byte? text final) = '\r' then final else stop
      let kept ← slice text last i
      let body ← slice text (i + 1) bodyEnd
      let after ← commentLoop text bodyEnd stop
      return kept ++ (['/', '*'] ++ Comment.breakEnds body ++ ['*', '/'] ++ after)) := by
  rw [commentLoop, if_pos (lt_of_byte? hb), hb]
  simp only [dite_true]
  rcases lineEnd text i with _ | stop <;> rfl

/-- The last byte of a line comment is a carriage return if its body ends with one. -/
theorem commentLoop_hash {last n : Nat} (h : text.drop i = '#' :: rest) (hn : lineLength rest = n) :
    commentLoop text last (byteOffset text i) = (do
      let stop := byteOffset text (i + n + 1)
      let bodyEnd := if (rest.take n).getLast? = some '\r' then byteOffset text (i + n) else stop
      let kept ← slice text last (byteOffset text i)
      let body ← slice text (byteOffset text (i + 1)) bodyEnd
      let after ← commentLoop text bodyEnd stop
      return kept ++ (['/', '*'] ++ Comment.breakEnds body ++ ['*', '/'] ++ after)) := by
  have hi := lt_of_drop h
  have hle : n ≤ rest.length := lt_of_regionTail? (by rw [Comment.regionTail?_hash, hn])
  obtain ⟨hnext, -⟩ := behind_tail h hle
  have hdrop := List.drop_eq_getElem_cons hnext
  have hlast : (text.take (i + n + 1)).getLast? = some ((rest.take n).getLast?.getD '#') := by
    rw [getLast?_take_succ h, List.getLast?_cons]
  have hchar : text[i + n] = (rest.take n).getLast?.getD '#' := by
    rw [List.take_succ_eq_append_getElem hnext, List.getLast?_concat] at hlast
    exact Option.some.inj hlast
  obtain ⟨hpos, b, hb, hascii, hwide⟩ := byte?_before hlast hnext
  rw [← hchar] at hascii hwide
  have hbyte : b = '\r' ↔ text[i + n] = '\r' := by
    by_cases hw : Wide text[i + n]
    · exact iff_of_false (ne_of_wide (hwide hw) (by decide)) (ne_of_wide hw (by decide))
    · rw [hascii hw]
  have hreturn : b = '\r' ↔ (rest.take n).getLast? = some '\r' := by
    rw [hbyte, hchar]
    cases (rest.take n).getLast? <;> simp
  have hend : b = '\r' → byteOffset text (i + n + 1) - 1 = byteOffset text (i + n) := fun hr => by
    have hw : ¬ Wide text[i + n] := by
      rw [hbyte.mp hr]
      decide
    rw [byteOffset_succ_of_not_wide hdrop hw, Nat.add_sub_cancel]
  rw [commentLoop_of_mark (byte?_byteOffset h (by decide))]
  simp only [Option.bind_eq_bind, Option.bind_some, lineEnd_eq (Nat.le_of_lt hi), h, lineLength_hash, hn,
    ← Nat.add_assoc, minus_of_le hpos, hb, ← byteOffset_succ_of_not_wide h (by decide : ¬ Wide '#'), ← hreturn]
  by_cases hr : b = '\r'
  · simp only [if_pos hr, hend hr]
  · simp only [if_neg hr]

/-- The parts of a line comment that ends with a carriage return. -/
theorem slice_return {n : Nat} (h : text.drop i = '#' :: rest) (hn : n ≤ rest.length)
    (hr : (rest.take n).getLast? = some '\r') :
    0 < n ∧ Text.slice text (i + 1) (i + n) = (rest.take n).dropLast ∧
      Text.slice text (i + n) (i + n + 1) = ['\r'] := by
  have hpos : 0 < n := by
    rcases Nat.eq_zero_or_pos n with rfl | hpos
    · cases hr
    · exact hpos
  have hsplit : (rest.take n).dropLast ++ ['\r'] = rest.take n := by
    have hne : rest.take n ≠ [] := fun e => by
      rw [e] at hr
      cases hr
    rw [List.getLast?_eq_some_getLast hne, Option.some.injEq] at hr
    rw [← hr, List.dropLast_concat_getLast hne]
  have hbody : Text.slice text (i + 1) (i + n + 1) = rest.take n := by
    rw [Nat.add_right_comm, slice_take, drop_succ h]
  have hfront : Text.slice text (i + 1) (i + n) = (rest.take n).dropLast := by
    rw [show i + n = i + 1 + (n - 1) by omega, slice_take, drop_succ h, List.dropLast_eq_take, List.length_take,
      List.take_take]
    congr 1
    omega
  have happend := slice_append text (by omega : i + 1 ≤ i + n) (Nat.le_succ (i + n))
  rw [hfront, hbody, ← hsplit, List.dropLast_concat] at happend
  exact ⟨hpos, hfront, List.append_cancel_left happend⟩

/-- Converting comments from a position on. -/
theorem commentLoop_eq (hji : j ≤ i) (hi : i ≤ text.length) (h : text.drop i = rest) :
    commentLoop text (byteOffset text j) (byteOffset text i) = some (Text.slice text j i ++ Comment.convert rest) := by
  rw [Comment.convert]
  fun_induction pieces rest generalizing i j with
  | case1 =>
    have hlen := List.drop_eq_nil_iff.mp h
    rw [commentLoop, if_neg (by rw [byteOffset_of_le hlen]; omega), sliceFrom_byteOffset (Nat.le_trans hji hi),
      Text.slice, List.take_of_length_le hlen]
    simp
  | case2 c rest kind n hr ih =>
    obtain ⟨hnext, hdrop⟩ := next_of_regionTail? h hr
    by_cases hc : c = '#'
    · subst hc
      rw [Comment.regionTail?_hash, Option.some.injEq, Prod.mk.injEq] at hr
      obtain ⟨rfl, hn⟩ := hr
      have hblock : Comment.convertPiece (.region .comment ('#' :: rest.take n)) = Comment.block (rest.take n) := rfl
      rw [commentLoop_hash h hn, slice_byteOffset hji hi, List.flatMap_cons, hblock, Comment.block]
      simp only [Option.bind_eq_bind, Option.bind_some]
      have hbody : Text.slice text (i + 1) (i + n + 1) = rest.take n := by
        rw [Nat.add_right_comm, slice_take, drop_succ h]
      by_cases hcr : (rest.take n).getLast? = some '\r'
      · -- the carriage return is copied with what stands behind the comment
        have hlen := length_of_drop h
        obtain ⟨hpos, hfront, hreturn⟩ := slice_return h (by omega) hcr
        rw [if_pos hcr, if_pos hcr, slice_byteOffset (by omega) (by omega), hfront, Option.bind_some,
          ih (Nat.le_succ _) hnext hdrop, hreturn]
        simp
      · rw [if_neg hcr, if_neg hcr, slice_byteOffset (by omega) hnext, hbody, Option.bind_some,
          ih (Nat.le_refl _) hnext hdrop]
        simp [Text.slice]
    · have hskip : commentLoop text (byteOffset text j) (byteOffset text i) =
          commentLoop text (byteOffset text j) (byteOffset text (i + n + 1)) := by
        obtain ⟨b, hb, hne⟩ := byte?_of_char h hc fun b hw => ne_of_wide hw (by decide)
        rw [commentLoop_of_byte hb hne, skipOpaque_eq h, hr]
        rfl
      rw [hskip, ih (by omega) hnext hdrop, slice_add h hji, List.append_assoc, List.flatMap_cons,
        Comment.convertPiece_of_ne hc]
  | case3 c rest hr ih =>
    have hc : c ≠ '#' := by
      rintro rfl
      rw [Comment.regionTail?_hash] at hr
      cases hr
    have hstep : commentLoop text (byteOffset text j) (byteOffset text i) =
        commentLoop text (byteOffset text j) (byteOffset text (i + 1)) := by
      by_cases hw : Wide c
      · refine step_wide h hw fun k b hb hwb => ?_
        rw [commentLoop_of_byte hb (ne_of_wide hwb (by decide)), skipOpaque_wide hb hwb]
        rfl
      · rw [commentLoop_of_byte (byte?_byteOffset h hw) hc, skipOpaque_eq h, hr, byteOffset_succ_of_not_wide h hw]
        rfl
    rw [hstep, ih (by omega) (lt_of_drop h) (drop_succ h), slice_next h hji, List.append_assoc]
    rfl

/-- Converting the comments of a whole text. -/
theorem commentLoop_zero (text : Text) : commentLoop text 0 0 = some (Comment.convert text) := by
  have h := commentLoop_eq (Nat.le_refl 0) (Nat.zero_le text.length) List.drop_zero
  rw [byteOffset_zero] at h
  rw [h]
  simp [Text.slice]

end SqlDialect.Bytes
