import SqlDialect.Proofs.Bytes.Split
import SqlDialect.Proofs.Bytes.Trivia
import SqlDialect.Proofs.Interval.Terms

/-!
# The terms of an interval by byte offsets

A word may start and end with characters of several bytes. Within such a character no word starts, and a word that is
read byte by byte ends where it ends read character by character.

* `parseLoop_eq`: the unit that ends a term is found where its counterpart finds it.
* `parseTerms_eq`: the terms are the same.
-/

namespace SqlDialect.Bytes

open Text
open SqlDialect.Interval (Sign Term TimeUnit)

variable {text rest : Text} {c : Char} {i j : Nat}

/-! ## One term -/

/-- Does a word start at an offset that holds the byte `b`? -/
def startsWord (text : Text) (i : Nat) (b : Char) : Checked Bool :=
  if isWord b then do
    let before ← byteBefore text i
    return !before.any fun c => isWord c || c = '.'
  else return false

/-- The offset behind the word at an offset. -/
def wordEnd (text : Text) (i : Nat) : Checked Nat := do
  let bs ← bytesFrom text i
  return i + (bs.takeWhile isWord).length

/-- The term that starts with the keyword at the offset `kw` and whose unit stands between two offsets. -/
def finishTerm (text : Text) (sign : Sign) (kw start stop : Nat) (unit : TimeUnit) :
    Checked (Except StageError (Term × Nat)) := do
  let amount := Text.trim (← slice text (kw + byteLength Interval.keyword) start)
  let source ← slice text kw stop
  if amount.isEmpty then return .error ⟨.amountMissing, source⟩
  else if Interval.nestsSubtraction amount then return .error ⟨.nestedSubtraction, source⟩
  else return .ok (⟨sign, amount, unit⟩, stop)

theorem finishTerm_stop {sign : Sign} {term : Term} {kw start stop n : Nat} {unit : TimeUnit}
    (h : finishTerm text sign kw start stop unit = some (.ok (term, n))) : n = stop := by
  obtain ⟨amount, -, h⟩ := Option.bind_eq_some_iff.mp h
  obtain ⟨source, -, h⟩ := Option.bind_eq_some_iff.mp h
  split at h
  · cases h
  · split at h
    · cases h
    · cases h
      rfl

/-- A word is not empty. -/
theorem wordEnd_lt {b : Char} (hb : byte? text i = some b) (hs : startsWord text i b = some true)
    (h : wordEnd text i = some j) : i < j := by
  have hword : isWord b = true := by
    unfold startsWord at hs
    split at hs
    · assumption
    · cases hs
  obtain ⟨bs, hbs, h⟩ := Option.bind_eq_some_iff.mp h
  obtain ⟨-, hbs⟩ := Option.ite_none_right_eq_some.mp hbs
  have hhead : bs.head? = some b := by rw [← Option.some.inj hbs, List.head?_drop, ← hb, byte?]
  obtain ⟨rest, rfl⟩ := List.head?_eq_some_iff.mp hhead
  rw [List.takeWhile_cons_of_pos hword, List.length_cons] at h
  have := Option.some.inj h
  omega

/-- The term that starts with the keyword at the offset `kw`, when the offset `i` is reached. -/
def parseLoop (text : Text) (sign : Sign) (kw i : Nat) : Checked (Except StageError (Term × Nat)) :=
  if i < byteLength text then
    match _b : byte? text i with
    | none => none
    | some b =>
      if isQuote b || isOpener b then
        match _h : findClosing text i with
        | some (some close) => parseLoop text sign kw (close + 1)
        | some none => do return .error ⟨.amountUnbalanced, ← snippet text kw (i + 1)⟩
        | none => none
      else
        match _h : skipComment text i with
        | some (some next) => parseLoop text sign kw next
        | some none =>
          if Interval.endsAmount b then do return .error ⟨.unitMissing, ← snippet text kw i⟩
          else
            match _f : startsWord text i b with
            | some true =>
              match _s : wordEnd text i with
              | some stop => do
                let word ← slice text i stop
                let next ← skipBlanks text stop
                if byte? text next = some '(' then parseLoop text sign kw stop
                else if Interval.unitsWithoutModifier.any (Text.same word) then
                  return .error ⟨.unitWithoutModifier word, ← slice text kw stop⟩
                else
                  match TimeUnit.ofWord? word with
                  | some unit => finishTerm text sign kw i stop unit
                  | none => parseLoop text sign kw stop
              | none => none
            | some false => parseLoop text sign kw (i + 1)
            | none => none
        | none => none
  else do return .error ⟨.unitMissing, ← snippet text kw i⟩
termination_by byteLength text - i
decreasing_by
  · have := findClosing_le _h
    omega
  · have := skipComment_lt _h
    omega
  · have := wordEnd_lt _b _f _s
    omega
  · have := wordEnd_lt _b _f _s
    omega
  · omega

/-- The term that starts at an offset. -/
def parseTerm (text : Text) (sign : Sign) (kw : Nat) : Checked (Except StageError (Term × Nat)) :=
  parseLoop text sign kw (kw + byteLength Interval.keyword)

theorem parseLoop_of_byte {sign : Sign} {kw : Nat} {b : Char} (hb : byte? text i = some b) :
    parseLoop text sign kw i = (do
      if isQuote b || isOpener b then
        match ← findClosing text i with
        | some close => parseLoop text sign kw (close + 1)
        | none => return .error ⟨.amountUnbalanced, ← snippet text kw (i + 1)⟩
      else
        match ← skipComment text i with
        | some next => parseLoop text sign kw next
        | none =>
          if Interval.endsAmount b then return .error ⟨.unitMissing, ← snippet text kw i⟩
          else
            let found ← startsWord text i b
            if found then
              let stop ← wordEnd text i
              let word ← slice text i stop
              let next ← skipBlanks text stop
              if byte? text next = some '(' then parseLoop text sign kw stop
              else if Interval.unitsWithoutModifier.any (Text.same word) then
                return .error ⟨.unitWithoutModifier word, ← slice text kw stop⟩
              else
                match TimeUnit.ofWord? word with
                | some unit => finishTerm text sign kw i stop unit
                | none => parseLoop text sign kw stop
            else parseLoop text sign kw (i + 1)) := by
  rw [parseLoop, if_pos (lt_of_byte? hb), hb]
  simp only
  split
  · rcases findClosing text i with _ | _ | close <;> rfl
  · rcases skipComment text i with _ | _ | next
    · rfl
    · simp only [Option.bind_eq_bind, Option.bind_some]
      split
      · rfl
      · rcases startsWord text i b with _ | _ | _
        · rfl
        · rfl
        · rcases wordEnd text i with _ | stop <;> rfl
    · rfl

/-- A term does not end in front of what has been read of it. -/
theorem parseLoop_le {sign : Sign} {term : Term} {kw stop : Nat}
    (h : parseLoop text sign kw i = some (.ok (term, stop))) : i ≤ stop := by
  generalize hn : byteLength text - i = n
  induction n using Nat.strongRecOn generalizing i with
  | ind n ih =>
    have hlater : ∀ {j}, i < j → i < byteLength text → parseLoop text sign kw j = some (.ok (term, stop)) → i ≤ stop :=
      fun {j} hij hi h => Nat.le_trans (Nat.le_of_lt hij) (ih _ (by omega) h rfl)
    cases hb : byte? text i with
    | none =>
      have hi : ¬ i < byteLength text := fun hi => by
        rw [byte?, List.getElem?_eq_none_iff, length_bytes] at hb
        omega
      rw [parseLoop, if_neg hi] at h
      obtain ⟨s, -, h⟩ := Option.bind_eq_some_iff.mp h
      cases h
    | some b =>
      have hi := lt_of_byte? hb
      rw [parseLoop_of_byte hb] at h
      split at h
      · obtain ⟨closing, hc, h⟩ := Option.bind_eq_some_iff.mp h
        cases closing with
        | some close => exact hlater (Nat.lt_succ_of_le (findClosing_le hc)) hi h
        | none =>
          obtain ⟨s, -, h⟩ := Option.bind_eq_some_iff.mp h
          cases h
      · obtain ⟨comment, hc, h⟩ := Option.bind_eq_some_iff.mp h
        cases comment with
        | some next => exact hlater (skipComment_lt hc).1 hi h
        | none =>
          simp only at h
          split at h
          · obtain ⟨s, -, h⟩ := Option.bind_eq_some_iff.mp h
            cases h
          · obtain ⟨found, hf, h⟩ := Option.bind_eq_some_iff.mp h
            split at h
            · next hfound =>
              subst hfound
              obtain ⟨wordStop, hs, h⟩ := Option.bind_eq_some_iff.mp h
              have hlt := wordEnd_lt hb hf hs
              obtain ⟨word, -, h⟩ := Option.bind_eq_some_iff.mp h
              obtain ⟨next, -, h⟩ := Option.bind_eq_some_iff.mp h
              split at h
              · exact hlater hlt hi h
              · split at h
                · obtain ⟨s, -, h⟩ := Option.bind_eq_some_iff.mp h
                  cases h
                · split at h
                  · rw [finishTerm_stop h]
                    exact Nat.le_of_lt hlt
                  · exact hlater hlt hi h
            · exact hlater (Nat.lt_succ_self i) hi h

/-- A word ends where it ends read character by character. -/
theorem wordEnd_eq (text : Text) (i : Nat) :
    wordEnd text (byteOffset text i) = some (byteOffset text (i + ((text.drop i).takeWhile isWord).length)) := by
  rw [wordEnd, bytesFrom_byteOffset, ← byteOffset_behind (fun c hc => isWord_of_wide hc)]
  rfl

/-- Two characters in front of which nothing differs: both belong to words or neither does, and both are dots or
neither is. -/
def Alike (c d : Char) : Prop := isWord c = isWord d ∧ (c = '.' ↔ d = '.')

theorem Alike.refl (c : Char) : Alike c c := ⟨rfl, Iff.rfl⟩

/-- What stands behind a word. -/
theorem behind_word (h : text.drop i = c :: rest) :
    i + (c :: rest.takeWhile isWord).length ≤ text.length ∧
      text.drop (i + (c :: rest.takeWhile isWord).length) = rest.dropWhile isWord ∧
      (text.take (i + (c :: rest.takeWhile isWord).length)).getLast? =
        some ((c :: rest.takeWhile isWord).getLast (by simp)) ∧
      Text.slice text i (i + (c :: rest.takeWhile isWord).length) = c :: rest.takeWhile isWord := by
  have hsplit : text.drop i = (c :: rest.takeWhile isWord) ++ rest.dropWhile isWord := by
    rw [h, List.cons_append, List.takeWhile_append_dropWhile]
  obtain ⟨hle, -, hlast⟩ := behind_tail h (List.takeWhile_prefix (l := rest) isWord).length_le
  simp only [take_length_takeWhile, Nat.add_assoc] at hle hlast
  refine ⟨hle, ?_, hlast, ?_⟩
  · rw [← List.drop_drop, hsplit, List.drop_left]
  · rw [slice_take, hsplit, List.take_left]

/-- A word starts at a position. -/
theorem startsWord_eq {before : Char} {p : Char} (hp : (text.take i).getLast? = some p) (halike : Alike p before)
    (hi : i ≤ text.length) (b : Char) :
    startsWord text (byteOffset text i) b = some (isWord b && !isWord before && decide (before ≠ '.')) := by
  have hwide : ∀ c, Wide c → (isWord c || decide (c = '.')) = true := fun c hc => by rw [isWord_of_wide hc]; rfl
  obtain ⟨x, hx, hany⟩ := byteBefore_any hwide hi
  rw [startsWord, hx]
  simp only [Option.bind_eq_bind, Option.bind_some, hany, hp, Option.any_some, halike.1, halike.2]
  cases isWord b <;> cases isWord before <;> simp

theorem endsAmount_of_wide (h : Wide c) : Interval.endsAmount c = false := by
  simp [Interval.endsAmount, isCloser_of_wide h, ne_of_wide h (by decide : ¬ Wide ','),
    ne_of_wide h (by decide : ¬ Wide ';')]

section Loop

variable {sign : Sign} {kw : Nat}

/-- At a character that neither opens anything nor ends the amount. -/
theorem parseLoop_code {b : Char} (hb : byte? text i = some b) (hq : (isQuote b || isOpener b) = false)
    (hcomment : skipComment text i = some none) (he : Interval.endsAmount b = false) :
    parseLoop text sign kw i = (do
      let found ← startsWord text i b
      if found then
        let stop ← wordEnd text i
        let word ← slice text i stop
        let next ← skipBlanks text stop
        if byte? text next = some '(' then parseLoop text sign kw stop
        else if Interval.unitsWithoutModifier.any (Text.same word) then
          return .error ⟨.unitWithoutModifier word, ← slice text kw stop⟩
        else
          match TimeUnit.ofWord? word with
          | some unit => finishTerm text sign kw i stop unit
          | none => parseLoop text sign kw stop
      else parseLoop text sign kw (i + 1)) := by
  rw [parseLoop_of_byte hb, hq, hcomment, he]
  rfl

/-- Within a character no word starts. -/
theorem parseLoop_within {a b : Char} (ha : byte? text i = some a) (hwa : Wide a) (hb : byte? text (i + 1) = some b)
    (hwb : Wide b) : parseLoop text sign kw (i + 1) = parseLoop text sign kw (i + 2) := by
  have hminus : minus (i + 1) 1 = some i := minus_of_le (Nat.succ_pos i)
  have hstart : startsWord text (i + 1) b = some false := by
    rw [startsWord, if_pos (isWord_of_wide hwb), byteBefore, if_pos (Nat.succ_pos i), hminus]
    simp only [Option.bind_eq_bind, Option.bind_some, ha, Option.pure_def, Option.any_some, isWord_of_wide hwa]
    rfl
  rw [parseLoop_code hb (opens_of_wide hwb) (skipComment_wide hb hwb) (endsAmount_of_wide hwb), hstart]
  rfl

/-- At a position where nothing opens and the amount goes on. -/
theorem parseLoop_position (h : text.drop i = c :: rest) (hq : (isQuote c || isOpener c) = false)
    (hcomment : commentTail? c rest = none) (he : Interval.endsAmount c = false) {p before : Char}
    (hp : (text.take i).getLast? = some p) (halike : Alike p before) :
    parseLoop text sign kw (byteOffset text i) =
      if isWord c && !isWord before && decide (before ≠ '.') then do
        let stop := i + (c :: rest.takeWhile isWord).length
        let word ← slice text (byteOffset text i) (byteOffset text stop)
        let next ← skipBlanks text (byteOffset text stop)
        if byte? text next = some '(' then parseLoop text sign kw (byteOffset text stop)
        else if Interval.unitsWithoutModifier.any (Text.same word) then
          return .error ⟨.unitWithoutModifier word, ← slice text kw (byteOffset text stop)⟩
        else
          match TimeUnit.ofWord? word with
          | some unit => finishTerm text sign kw (byteOffset text i) (byteOffset text stop) unit
          | none => parseLoop text sign kw (byteOffset text stop)
      else parseLoop text sign kw (byteOffset text (i + 1)) := by
  obtain ⟨b, hb, hqb, heb, hwb, hnext⟩ : ∃ b, byte? text (byteOffset text i) = some b ∧
      (isQuote b || isOpener b) = false ∧ Interval.endsAmount b = false ∧ isWord b = isWord c ∧
      parseLoop text sign kw (byteOffset text i + 1) = parseLoop text sign kw (byteOffset text (i + 1)) := by
    obtain ⟨hw, hb⟩ | ⟨hw, b, hb, hwb⟩ := byte?_cases h
    · exact ⟨c, hb, hq, he, rfl, by rw [byteOffset_succ_of_not_wide h hw]⟩
    · exact ⟨b, hb, opens_of_wide hwb, endsAmount_of_wide hwb,
        by rw [isWord_of_wide hwb, isWord_of_wide hw], step_wide_tail h hw fun _ _ _ => parseLoop_within⟩
  have hcomment' : skipComment text (byteOffset text i) = some none := by rw [skipComment_eq h, hcomment]; rfl
  rw [parseLoop_code hb hqb hcomment' heb, startsWord_eq hp halike (Nat.le_of_lt (lt_of_drop h)), hwb, hnext,
    wordEnd_eq, h]
  cases hc : isWord c with
  | false => rfl
  | true =>
    rw [List.takeWhile_cons, hc]
    rfl

/-- At a position where a word starts. -/
theorem parseLoop_word (h : text.drop i = c :: rest) (hq : (isQuote c || isOpener c) = false)
    (hcomment : commentTail? c rest = none) (he : Interval.endsAmount c = false) {p before : Char}
    (hp : (text.take i).getLast? = some p) (halike : Alike p before)
    (hs : (isWord c && !isWord before && decide (before ≠ '.')) = true) :
    parseLoop text sign kw (byteOffset text i) =
      let word := c :: rest.takeWhile isWord
      let stop := i + word.length
      if ((rest.dropWhile isWord).dropWhile isBlank).head? = some '(' then parseLoop text sign kw (byteOffset text stop)
      else if Interval.unitsWithoutModifier.any (Text.same word) then do
        return .error ⟨.unitWithoutModifier word, ← slice text kw (byteOffset text stop)⟩
      else
        match TimeUnit.ofWord? word with
        | some unit => finishTerm text sign kw (byteOffset text i) (byteOffset text stop) unit
        | none => parseLoop text sign kw (byteOffset text stop) := by
  obtain ⟨hle, hdrop, -, hslice⟩ := behind_word h
  have hblanks := byte?_behind_blanks text (i + (c :: rest.takeWhile isWord).length)
  rw [hdrop] at hblanks
  rw [parseLoop_position h hq hcomment he hp halike, if_pos hs]
  simp only [Option.bind_eq_bind, slice_byteOffset (Nat.le_add_right ..) hle, Option.bind_some, skipBlanks_eq, hdrop,
    hblanks, hslice]

/-- The search for the unit, where `j` is the position that is `i` behind the keyword. -/
theorem parseLoop_eq {before p : Char} (hpos : j = kw + i) (hj : j ≤ text.length) (h : text.drop j = rest)
    (hp : (text.take j).getLast? = some p) (halike : Alike p before) :
    parseLoop text sign (byteOffset text kw) (byteOffset text j) =
      match Interval.findUnit (text.drop kw) before i rest with
      | .error e => some (.error e)
      | .ok (unit, start, stop) =>
        finishTerm text sign (byteOffset text kw) (byteOffset text (kw + start)) (byteOffset text (kw + stop))
          unit := by
  have hsource : ∀ {k n}, k = kw + n → (text.drop kw).take n = Text.slice text kw k := fun hk => by
    rw [hk, slice_take]
  fun_induction Interval.findUnit (text.drop kw) before i rest generalizing j p with
  | case1 before i =>
    have hlen := List.drop_eq_nil_iff.mp h
    rw [parseLoop, if_neg (by rw [byteOffset_of_le hlen]; omega), snippet_eq (by omega) hj, hsource hpos]
    rfl
  | case2 before i c rest hq hn =>
    rw [parseLoop_of_byte (byte?_byteOffset h (not_wide_of_opens hq)), if_pos hq, findClosing_eq, h, hn,
      ← byteOffset_succ_of_not_wide h (not_wide_of_opens hq), snippet_eq (by omega) (lt_of_drop h),
      hsource (k := j + 1) (by omega)]
    rfl
  | case3 before i c rest hq n hn ih =>
    obtain ⟨hle, hdrop, hlast⟩ := behind_tail h (Nat.lt_succ_iff.mp (closingOffset?_lt hn))
    rw [parseLoop_of_byte (byte?_byteOffset h (not_wide_of_opens hq)), if_pos hq, findClosing_eq, h, hn]
    simp only [Option.map_some, Option.bind_eq_bind, Option.bind_some]
    rw [byteOffset_behind_closing h hn]
    exact ih (by omega) hle hdrop hlast (Alike.refl _)
  | case4 before i c rest hq n hn ih =>
    have hw := not_wide_of_commentTail? hn
    obtain ⟨hle, hdrop, hlast⟩ := behind_tail h (lt_of_regionTail? (regionTail?_of_commentTail? hn))
    rw [parseLoop_of_byte (byte?_byteOffset h hw), if_neg hq, skipComment_eq h, hn]
    exact ih (by omega) hle hdrop hlast (Alike.refl _)
  | case5 before i c rest hq hn he =>
    have hw : ¬ Wide c := fun hw => by
      rw [endsAmount_of_wide hw] at he
      cases he
    rw [parseLoop_of_byte (byte?_byteOffset h hw), if_neg hq, skipComment_eq h, hn]
    simp only [Option.map_none, Option.bind_eq_bind, Option.bind_some, if_pos he]
    rw [snippet_eq (by omega) hj, hsource hpos]
    rfl
  | case6 before i c rest hq hn he hs word after stop =>
    rename_i hfun ih
    obtain ⟨hle, hdrop, hlast, -⟩ := behind_word h
    rw [parseLoop_word h (by simpa using hq) hn (by simpa using he) hp halike hs, if_pos hfun]
    exact ih (by rw [hpos, Nat.add_assoc]) hle hdrop hlast (Alike.refl _)
  | case7 before i c rest hq hn he hs word after stop =>
    rename_i hfun hno
    obtain ⟨hle, -⟩ := behind_word h
    rw [parseLoop_word h (by simpa using hq) hn (by simpa using he) hp halike hs, if_neg hfun, if_pos hno,
      slice_byteOffset (by omega) hle, hsource (k := j + word.length) (by omega)]
    rfl
  | case8 before i c rest hq hn he hs word after stop =>
    rename_i hfun hno unit hunit
    rw [parseLoop_word h (by simpa using hq) hn (by simpa using he) hp halike hs, if_neg hfun, if_neg hno, hunit]
    simp only [← hpos, show kw + stop = j + word.length by omega]
    rfl
  | case9 before i c rest hq hn he hs word after stop =>
    rename_i hfun hno hunit ih
    obtain ⟨hle, hdrop, hlast, -⟩ := behind_word h
    rw [parseLoop_word h (by simpa using hq) hn (by simpa using he) hp halike hs, if_neg hfun, if_neg hno, hunit]
    exact ih (by rw [hpos, Nat.add_assoc]) hle hdrop hlast (Alike.refl _)
  | case10 before i c rest hq hn he hs ih =>
    obtain ⟨hle, hdrop, hlast⟩ := behind_tail h (Nat.zero_le _)
    rw [parseLoop_position h (by simpa using hq) hn (by simpa using he) hp halike, if_neg hs]
    exact ih (by omega) hle hdrop hlast (Alike.refl _)

end Loop

/-- The unit does not end behind the text. -/
theorem findUnit_le {source : Text} {before : Char} {unit : TimeUnit} {start stop : Nat}
    (h : Interval.findUnit source before i rest = .ok (unit, start, stop)) : stop ≤ i + rest.length := by
  fun_induction Interval.findUnit source before i rest with
  | case1 | case2 | case5 | case7 => cases h
  | case3 before i c rest hq n hn ih =>
    have hle := closingOffset?_lt hn
    have := ih h
    simp only [List.length_drop, List.length_cons] at this hle ⊢
    omega
  | case4 before i c rest hq n hn ih =>
    have hle := lt_of_regionTail? (regionTail?_of_commentTail? hn)
    have := ih h
    simp only [List.length_drop, List.length_cons] at this ⊢
    omega
  | case6 before i c rest hq hn he hs word after wordStop _ ih
  | case9 before i c rest hq hn he hs word after wordStop _ _ _ ih =>
    have hsplit := congrArg List.length (List.takeWhile_append_dropWhile (p := isWord) (l := rest))
    have hstop : wordStop = i + (c :: rest.takeWhile isWord).length := rfl
    have hafter : after.length = (rest.dropWhile isWord).length := rfl
    have := ih h
    rw [List.length_append] at hsplit
    simp only [List.length_cons] at hstop ⊢
    omega
  | case8 before i c rest hq hn he hs word =>
    have hword : word.length = (c :: rest.takeWhile isWord).length := rfl
    have hle := (List.takeWhile_prefix (l := rest) isWord).length_le
    simp only [Except.ok.injEq, Prod.mk.injEq] at h
    simp only [List.length_cons] at hword ⊢
    omega
  | case10 before i c rest hq hn he hs ih =>
    have := ih h
    simp only [List.length_cons]
    omega

/-- A term does not end behind the text. -/
theorem readTerm_le {sign : Sign} {source : Text} {term : Term} {n : Nat}
    (h : Interval.readTerm sign source = .ok (term, n)) (hsource : Interval.keyword.length ≤ source.length) :
    n ≤ source.length := by
  unfold Interval.readTerm at h
  split at h
  · cases h
  · next unit start stop hunit =>
    have hle := findUnit_le hunit
    rw [List.length_drop] at hle
    simp only at h
    split at h
    · cases h
    · split at h
      · cases h
      · cases h
        omega

/-- The last character of the keyword, in any letter case. -/
theorem getLast?_keyword {kw : Nat} (h : Text.starts Interval.keyword (text.drop kw) = true) :
    ∃ p, (text.take (kw + Interval.keyword.length)).getLast? = some p ∧ Alike p 'l' := by
  obtain ⟨v, u, hvu, hv⟩ := starts_iff.mp h
  have hlast : v.getLast?.map Char.toLower = some 'l' := by
    have hkeyword : (Text.lower Interval.keyword).getLast? = some 'l' := by decide +kernel
    rw [← hv, Text.lower, List.getLast?_map] at hkeyword
    exact hkeyword
  obtain ⟨p, hp, hlower⟩ := Option.map_eq_some_iff.mp hlast
  have hword : isWord p = true := by rw [← isWord_toLower, hlower]; decide
  refine ⟨p, ?_, by rw [hword]; decide, ?_⟩
  · rw [← length_eq_of_lower_eq hv, List.take_add, hvu, List.take_left, List.getLast?_append, hp]
    rfl
  · constructor
    · rintro rfl
      exact absurd hword (by decide)
    · intro h
      exact absurd h (by decide)

/-- There is room for the keyword where it stands. -/
theorem add_keyword_le {kw : Nat} (h : Text.starts Interval.keyword (text.drop kw) = true) :
    kw + Interval.keyword.length ≤ text.length :=
  add_length_le_of_starts Interval.keyword_ne_nil h

/-- A term. -/
theorem parseTerm_eq {kw : Nat} (sign : Sign) (h : Text.starts Interval.keyword (text.drop kw) = true) :
    parseTerm text sign (byteOffset text kw) =
      some ((Interval.readTerm sign (text.drop kw)).map fun t => (t.1, byteOffset text (kw + t.2))) := by
  have hstart := byteOffset_add_word h
  have hlen := add_keyword_le h
  obtain ⟨p, hp, halike⟩ := getLast?_keyword h
  rw [parseTerm, hstart, parseLoop_eq rfl hlen rfl hp halike, Interval.readTerm, List.drop_drop]
  cases hunit : Interval.findUnit (text.drop kw) 'l' Interval.keyword.length
      (text.drop (kw + Interval.keyword.length)) with
  | error e => rfl
  | ok t =>
    obtain ⟨unit, start, stop⟩ := t
    obtain ⟨h₁, h₂⟩ := Interval.findUnit_lt hunit
    have h₃ := findUnit_le hunit
    have hstop : kw + stop ≤ text.length := by
      rw [List.length_drop] at h₃
      omega
    simp only [finishTerm, hstart]
    rw [slice_byteOffset (by omega) (by omega), slice_byteOffset (Nat.le_add_right ..) hstop]
    simp only [Option.bind_eq_bind, Option.bind_some, slice_drop, slice_take]
    split
    · rfl
    · split <;> rfl

/-! ## All terms -/

/-- The sign of a further term behind the offset where a term ends, and the offset of its keyword. -/
def nextSign (text : Text) (i : Nat) : Checked (Option (Sign × Nat)) := do
  let next ← skipTrivia text i
  match (byte? text next).bind Sign.ofChar? with
  | none => return none
  | some sign =>
    let kw ← skipTrivia text (next + 1)
    let found ← keywordAt text kw Interval.keyword
    return if found then some (sign, kw) else none

theorem nextSign_lt {sign : Sign} {kw : Nat} (h : nextSign text i = some (some (sign, kw))) :
    i < kw ∧ kw + byteLength Interval.keyword ≤ byteLength text := by
  obtain ⟨next, hnext, h⟩ := Option.bind_eq_some_iff.mp h
  split at h
  · cases h
  · obtain ⟨start, hstart, h⟩ := Option.bind_eq_some_iff.mp h
    obtain ⟨found, hfound, h⟩ := Option.bind_eq_some_iff.mp h
    split at h
    · next hyes =>
      cases h
      subst hyes
      have := skipTrivia_le hnext
      have := skipTrivia_le hstart
      exact ⟨by omega, keywordAt_le hfound⟩
    · cases h

/-- The further terms behind the offset where a term ends, and the offset where the last of them ends. -/
def chainLoop (text : Text) (i : Nat) : Checked (Except StageError (List Term × Nat)) :=
  match _n : nextSign text i with
  | none => none
  | some none => return .ok ([], i)
  | some (some (sign, kw)) =>
    match _t : parseTerm text sign kw with
    | none => none
    | some (.error e) => return .error e
    | some (.ok (term, stop)) => do
      match ← chainLoop text stop with
      | .error e => return .error e
      | .ok (terms, stop) => return .ok (term :: terms, stop)
termination_by byteLength text - i
decreasing_by
  have := nextSign_lt _n
  have := parseLoop_le _t
  omega

theorem chainLoop_of_sign {sign : Sign} {kw : Nat} (h : nextSign text i = some (some (sign, kw))) :
    chainLoop text i = (do
      match ← parseTerm text sign kw with
      | .error e => return .error e
      | .ok (term, stop) =>
        match ← chainLoop text stop with
        | .error e => return .error e
        | .ok (terms, stop) => return .ok (term :: terms, stop)) := by
  rw [chainLoop, h]
  simp only
  rcases parseTerm text sign kw with _ | _ | _ <;> rfl

theorem chainLoop_le {terms : List Term} {stop : Nat} (h : chainLoop text i = some (.ok (terms, stop))) : i ≤ stop := by
  fun_induction chainLoop text i generalizing terms stop with
  | case1 | case3 | case4 => cases h
  | case2 i hn =>
    cases h
    exact Nat.le_refl _
  | case5 i sign kw hn term next ht ih =>
    have hsign := nextSign_lt hn
    have hterm := parseLoop_le ht
    obtain ⟨further, hf, h⟩ := Option.bind_eq_some_iff.mp h
    cases further with
    | error e => cases h
    | ok t =>
      cases h
      have := ih hf
      omega

/-- All terms from an offset on, the first with the given sign, and the offset where the last of them ends. -/
def parseTerms (text : Text) (sign : Sign) (kw : Nat) : Checked (Except StageError (List Term × Nat)) := do
  match ← parseTerm text sign kw with
  | .error e => return .error e
  | .ok (term, stop) =>
    match ← chainLoop text stop with
    | .error e => return .error e
    | .ok (terms, stop) => return .ok (term :: terms, stop)

/-- The terms do not end in front of their first keyword. -/
theorem parseTerms_le {sign : Sign} {terms : List Term} {kw stop : Nat}
    (h : parseTerms text sign kw = some (.ok (terms, stop))) : kw + byteLength Interval.keyword ≤ stop := by
  obtain ⟨first, hfirst, h⟩ := Option.bind_eq_some_iff.mp h
  cases first with
  | error e => cases h
  | ok t =>
    obtain ⟨further, hf, h⟩ := Option.bind_eq_some_iff.mp h
    cases further with
    | error e => cases h
    | ok ts =>
      cases h
      exact Nat.le_trans (parseLoop_le hfirst) (chainLoop_le hf)

theorem triviaLength_le (t : Text) : Interval.triviaLength t ≤ t.length := by
  fun_induction Interval.triviaLength t with
  | case1 | case4 => exact Nat.zero_le _
  | case2 c rest hc ih => exact Nat.succ_le_succ ih
  | case3 c rest hc n hn ih =>
    have hle := lt_of_regionTail? (regionTail?_of_commentTail? hn)
    simp only [List.length_drop, List.length_cons] at ih ⊢
    omega

theorem ofChar?_of_wide (h : Wide c) : Sign.ofChar? c = none := by
  unfold Sign.ofChar?
  split
  · exact absurd h (by decide)
  · exact absurd h (by decide)
  · rfl

/-- The sign of a further term behind a term. -/
theorem nextSign_eq (text : Text) (i : Nat) :
    nextSign text (byteOffset text i) =
      some ((Interval.nextSign? (text.drop i)).map fun s => (s.1, byteOffset text (i + s.2))) := by
  rw [nextSign, skipTrivia_eq, Interval.nextSign?]
  simp only [Option.bind_eq_bind, Option.bind_some, List.drop_drop]
  generalize Interval.triviaLength (text.drop i) = skipped
  cases h : text.drop (i + skipped) with
  | nil =>
    rw [byte?_end h]
    rfl
  | cons c rest =>
    obtain ⟨hw, hb⟩ | ⟨hw, b, hb, hwb⟩ := byte?_cases h
    · rw [hb, Option.bind_some]
      cases hsign : Sign.ofChar? c with
      | none =>
        simp only [hsign]
        rfl
      | some sign =>
        obtain ⟨hle, hdrop, hlast⟩ := behind_tail h (triviaLength_le rest)
        have hkw : i + skipped + 1 + Interval.triviaLength rest = i + skipped + Interval.triviaLength rest + 1 :=
          Nat.add_right_comm ..
        simp only [← byteOffset_succ_of_not_wide h hw, skipTrivia_eq, drop_succ h, hkw, Option.bind_some,
          keywordAt_eq Interval.keyword hle, hdrop, getLast?_take_succ h, hsign]
        split
        · rw [Option.map_some, ← hkw]
          simp only [Nat.add_assoc]
          rfl
        · rfl
    · rw [hb, Option.bind_some, ofChar?_of_wide hwb]
      simp only [ofChar?_of_wide hw]
      rfl

/-- The keyword stands behind the sign of a further term. -/
theorem starts_of_nextSign? {t : Text} {sign : Sign} {n : Nat} (h : Interval.nextSign? t = some (sign, n)) :
    Text.starts Interval.keyword (t.drop n) = true := by
  unfold Interval.nextSign? at h
  simp only at h
  split at h
  · cases h
  · next c rest hd =>
    split at h
    · cases h
    · split at h
      · next hkw =>
        cases h
        rw [← List.drop_drop, drop_succ hd]
        exact starts_of_startsKeyword hkw
      · cases h

/-- A further term lies within the text. -/
theorem add_readTerm_le {sign : Sign} {term : Term} {kw n : Nat}
    (h : Text.starts Interval.keyword (text.drop kw) = true)
    (hterm : Interval.readTerm sign (text.drop kw) = .ok (term, n)) : kw + n ≤ text.length := by
  have hkw := add_keyword_le h
  have hle := readTerm_le hterm (starts_length h)
  rw [List.length_drop] at hle
  omega

/-- A step over a further term. -/
theorem chainLoop_step {sign : Sign} {skipped : Nat}
    (hn : Interval.nextSign? (text.drop i) = some (sign, skipped)) :
    chainLoop text (byteOffset text i) =
      match Interval.readTerm sign ((text.drop i).drop skipped) with
      | .error e => some (.error e)
      | .ok (term, n) => do
        match ← chainLoop text (byteOffset text (i + (skipped + n))) with
        | .error e => return .error e
        | .ok (terms, stop) => return .ok (term :: terms, stop) := by
  have hstarts := starts_of_nextSign? hn
  rw [List.drop_drop] at hstarts ⊢
  have hsign : nextSign text (byteOffset text i) = some (some (sign, byteOffset text (i + skipped))) := by
    rw [nextSign_eq, hn]
    rfl
  rw [chainLoop_of_sign hsign, parseTerm_eq sign hstarts]
  simp only [← Nat.add_assoc]
  cases Interval.readTerm sign (text.drop (i + skipped)) <;> rfl

/-- The further terms behind a term. -/
theorem chainLoop_eq (text : Text) (i : Nat) :
    chainLoop text (byteOffset text i) =
      some ((Interval.readChain (text.drop i)).map fun t => (t.1, byteOffset text (i + t.2))) := by
  generalize h : text.drop i = t
  fun_induction Interval.readChain t generalizing i with
  | case1 t hn =>
    rw [chainLoop, nextSign_eq, h, hn]
    rfl
  | case2 t sign skipped hn e hterm =>
    subst h
    rw [chainLoop_step hn, hterm]
    rfl
  | case3 t sign skipped hn term n hterm e hchain ih =>
    subst h
    rw [chainLoop_step hn, hterm]
    simp only
    rw [ih _ List.drop_drop.symm, hchain]
    rfl
  | case4 t sign skipped hn term n hterm terms m hchain ih =>
    subst h
    rw [chainLoop_step hn, hterm]
    simp only
    rw [ih _ List.drop_drop.symm, hchain, Except.map, Except.map, Nat.add_assoc]
    rfl

/-- All terms. -/
theorem parseTerms_eq {kw : Nat} (sign : Sign) (h : Text.starts Interval.keyword (text.drop kw) = true) :
    parseTerms text sign (byteOffset text kw) =
      some ((Interval.readTerms sign (text.drop kw)).map fun t => (t.1, byteOffset text (kw + t.2))) := by
  rw [parseTerms, parseTerm_eq sign h, Interval.readTerms]
  cases Interval.readTerm sign (text.drop kw) with
  | error e => rfl
  | ok t =>
    simp only [Except.map, Option.bind_eq_bind, Option.bind_some, chainLoop_eq, List.drop_drop]
    cases Interval.readChain (text.drop (kw + t.2)) with
    | error e => rfl
    | ok ts =>
      simp only [Nat.add_assoc]
      rfl

/-- The terms lie within the text. -/
theorem readTerms_le {sign : Sign} {terms : List Term} {kw n : Nat}
    (h : Text.starts Interval.keyword (text.drop kw) = true)
    (hterms : Interval.readTerms sign (text.drop kw) = .ok (terms, n)) : kw + n ≤ text.length := by
  have hchain : ∀ {t : Text} {terms : List Term} {m : Nat}, Interval.readChain t = .ok (terms, m) → m ≤ t.length := by
    intro t
    fun_induction Interval.readChain t with
    | case1 =>
      intro terms m h
      cases h
      exact Nat.zero_le _
    | case2 | case3 =>
      intro terms m h
      cases h
    | case4 t sign skipped hn term n hterm ts k hts ih =>
      intro terms m h
      cases h
      have hle := add_readTerm_le (starts_of_nextSign? hn) hterm
      have := ih hts
      rw [List.length_drop] at this
      omega
  unfold Interval.readTerms at hterms
  split at hterms
  · cases hterms
  · next term k hterm =>
    have hle := add_readTerm_le h hterm
    split at hterms
    · cases hterms
    · next ts m hts =>
      cases hterms
      have := hchain hts
      rw [List.drop_drop, List.length_drop] at this
      omega

end SqlDialect.Bytes
