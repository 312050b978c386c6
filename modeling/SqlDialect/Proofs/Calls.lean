import SqlDialect.TimeDifference
import SqlDialect.Proofs.Keyword
import SqlDialect.Proofs.Nesting

/-!
# The calls of a text, from the inside out

`convert` rewrites the calls of TIMESTAMPDIFF from the outside in. Here the calls of a text at every depth are listed
(`calls`), and the translation that converts the arguments of a call first is written as a recursion over the text
(`bottomUp`).

* `TimeDifference.convertFrom_call`: what `convertFrom` does at the first call of a text.
* `TimeDifference.Call.WellFormed`: the calls that can be converted, as `read_eq_ok_iff` shows.
-/

namespace SqlDialect.TimeDifference

/-! ## The first call -/

theorem isWord_functionName : ∀ c ∈ functionName, isWord c = true := by decide +kernel

/-- Does a call start here? Behind the name there may be blanks before the parenthesis. -/
def startsCall (before : Option Char) (text : Text) : Bool :=
  startsKeyword functionName before text && ((text.drop functionName.length).dropWhile isBlank).head? == some '('

/-- Does the name stand here without a parenthesis behind it? -/
def startsBare (before : Option Char) (text : Text) : Bool :=
  startsKeyword functionName before text && !startsCall before text

/-- What stands behind the parenthesis of the call that a text starts with. -/
def behindParenthesis (text : Text) : Text := ((text.drop functionName.length).dropWhile isBlank).tail

theorem startsKeyword_of_startsCall {b : Option Char} {t : Text} (h : startsCall b t = true) :
    startsKeyword functionName b t = true := by
  simp only [startsCall, Bool.and_eq_true] at h
  exact h.1

/-- The first call of a text: what stands before its name, and what stands behind its opening parenthesis. -/
def opened? (text : Text) : Option (Text × Text) :=
  (firstIn startsCall none (pieces text)).map fun n => (text.take n, behindParenthesis (text.drop n))

theorem length_behindParenthesis (text : Text) :
    (behindParenthesis text).length + functionName.length ≤ text.length ∨ text.length < functionName.length := by
  by_cases h : text.length < functionName.length
  · exact Or.inr h
  · refine Or.inl ?_
    have h1 := (List.dropWhile_sublist isBlank (l := text.drop functionName.length)).length_le
    simp only [behindParenthesis, List.length_tail, List.length_drop] at h1 ⊢
    omega

/-- Behind the opening parenthesis of a call the text is shorter. -/
theorem opened?_lt {text front inner : Text} (h : opened? text = some (front, inner)) :
    inner.length < text.length := by
  obtain ⟨n, hn, he⟩ := Option.map_eq_some_iff.mp h
  simp only [Prod.mk.injEq] at he
  obtain ⟨ms, c, ns, hp, hl, hs⟩ := firstIn_split hn
  have htext : text.drop n = c :: textOf ns := drop_of_pieces hp hl
  have h1 := starts_length (by
    have := startsKeyword_of_startsCall hs
    simp only [startsKeyword, Bool.and_eq_true] at this
    exact this.1.1)
  have h2 := length_behindParenthesis (text.drop n)
  have h3 : 0 < functionName.length := List.length_pos_iff.mpr functionName_ne_nil
  rw [htext] at h2 he
  have h4 := congrArg List.length htext
  rw [List.length_drop] at h4
  rw [← he.2]
  omega

/-- A part of a text is no longer than the text. -/
theorem length_le_of_mem_split {text part : Text} {sep : Char} (h : part ∈ splitTopLevel text sep) :
    part.length ≤ text.length := by
  have hj := congrArg List.length (joinParts_splitPieces sep 0 (pieces text))
  rw [textOf_pieces, joinParts, List.length_append] at hj
  rcases List.mem_cons.mp h with rfl | h
  · omega
  · obtain ⟨xs, ys, hxy⟩ := List.append_of_mem h
    rw [hxy] at hj
    simp only [List.flatMap_append, List.flatMap_cons, List.length_append, List.length_cons] at hj
    omega

/-- The arguments of the first call are shorter than the text. -/
theorem trim_lt {text front inner part : Text} {parts : List Text} {n : Nat} {sep : Char}
    (ho : opened? text = some (front, inner)) (hs : splitTopLevel (inner.take n) sep = parts) (h : part ∈ parts) :
    (Text.trim part).length < text.length := by
  have h1 := opened?_lt ho
  have h2 := length_le_of_mem_split (hs ▸ h)
  have h3 := (Text.trim_sublist part).length_le
  rw [List.length_take] at h2
  omega

/-- What stands behind the first call is shorter than the text. -/
theorem drop_lt {text front inner : Text} {n : Nat} (ho : opened? text = some (front, inner)) :
    (inner.drop (n + 1)).length < text.length := by
  have h1 := opened?_lt ho
  rw [List.length_drop]
  omega

/-! ## All calls -/

/-- A call with the text between its parentheses, if they match. -/
structure Call where
  arguments? : Option Text
  deriving DecidableEq, Repr

namespace Call

/-- The arguments without the spaces around them. -/
def parts (c : Call) : List Text :=
  match c.arguments? with
  | none => []
  | some arguments => (splitTopLevel arguments ',').map Text.trim

/-- A call that can be converted: its parentheses match, and it has three arguments, of which the first is the unit
SECOND and the others are not blank. -/
def WellFormed (c : Call) : Prop :=
  ∃ unit first last, c.parts = [unit, first, last] ∧ Text.same unit unitName = true ∧ first ≠ [] ∧ last ≠ []

end Call

/-- The calls of a text outside of literals and comments, at every depth. -/
def calls (text : Text) : List Call :=
  match _ho : opened? text with
  | none => []
  | some (_, inner) =>
    match _hc : closingIn ['('] inner with
    | none => [⟨none⟩]
    | some n =>
      let within :=
        match _hs : splitTopLevel (inner.take n) ',' with
        | [_, first, last] => calls (Text.trim first) ++ calls (Text.trim last)
        | _ => []
      ⟨some (inner.take n)⟩ :: within ++ calls (inner.drop (n + 1))
termination_by text.length
decreasing_by
  · exact trim_lt _ho _hs (by simp)
  · exact trim_lt _ho _hs (by simp)
  · exact drop_lt _ho

/-- The text with every call converted, where the arguments of a call are converted before the call is written. -/
def bottomUp (text : Text) : Text :=
  match _ho : opened? text with
  | none => text
  | some (front, inner) =>
    match _hc : closingIn ['('] inner with
    | none => text
    | some n =>
      match _hs : splitTopLevel (inner.take n) ',' with
      | [unit, first, last] =>
        let d : TimeDifference := ⟨Text.trim unit, bottomUp (Text.trim first), bottomUp (Text.trim last)⟩
        front ++ d.render ++ bottomUp (inner.drop (n + 1))
      | _ => text
termination_by text.length
decreasing_by
  · exact trim_lt _ho _hs (by simp)
  · exact trim_lt _ho _hs (by simp)
  · exact drop_lt _ho

section Equations

variable {text front inner unit first last : Text} {n : Nat}

theorem calls_eq_nil (h : opened? text = none) : calls text = [] := by
  rw [calls]
  split
  · rfl
  · next h' => rw [h] at h'; cases h'

theorem calls_unclosed (h : opened? text = some (front, inner)) (hc : closingIn ['('] inner = none) :
    calls text = [⟨none⟩] := by
  rw [calls]
  split
  · next h' => rw [h] at h'; cases h'
  · next h' =>
    rw [h] at h'
    cases h'
    split
    · rfl
    · next h' => rw [hc] at h'; cases h'

/-- The calls of a text with a first call that is closed. -/
theorem calls_closed (h : opened? text = some (front, inner)) (hc : closingIn ['('] inner = some n) :
    ∃ within, calls text = ⟨some (inner.take n)⟩ :: within ++ calls (inner.drop (n + 1)) ∧
      (∀ unit first last, splitTopLevel (inner.take n) ',' = [unit, first, last] →
        within = calls (Text.trim first) ++ calls (Text.trim last)) ∧
      ((¬ ∃ unit first last, splitTopLevel (inner.take n) ',' = [unit, first, last]) → within = []) := by
  rw [calls]
  split
  · next h' => rw [h] at h'; cases h'
  · next h' =>
    rw [h] at h'
    cases h'
    split
    · next h' => rw [hc] at h'; cases h'
    · next h' =>
      rw [hc] at h'
      cases h'
      refine ⟨_, rfl, fun unit first last hs => ?_, fun hno => ?_⟩
      · split
        · next h' => rw [hs] at h'; cases h'; rfl
        · next h' => exact absurd hs (h' _ _ _)
      · split
        · next h' => exact absurd ⟨_, _, _, h'⟩ hno
        · rfl

theorem bottomUp_eq_self (h : opened? text = none) : bottomUp text = text := by
  rw [bottomUp]
  split
  · rfl
  · next h' => rw [h] at h'; cases h'

/-- A text with a first call of three arguments. -/
theorem bottomUp_call (h : opened? text = some (front, inner)) (hc : closingIn ['('] inner = some n)
    (hs : splitTopLevel (inner.take n) ',' = [unit, first, last]) :
    bottomUp text = front ++ render ⟨Text.trim unit, bottomUp (Text.trim first), bottomUp (Text.trim last)⟩ ++
      bottomUp (inner.drop (n + 1)) := by
  rw [bottomUp]
  split
  · next h' => rw [h] at h'; cases h'
  · next h' =>
    rw [h] at h'
    cases h'
    split
    · next h' => rw [hc] at h'; cases h'
    · next h' =>
      rw [hc] at h'
      cases h'
      split
      · next h' => rw [hs] at h'; cases h'; rfl
      · next h' => exact absurd hs (h' _ _ _)

end Equations

/-! ## Reading a call -/

/-- A call is read exactly if it is well-formed. -/
theorem read_eq_ok_iff {call arguments : Text} {d : TimeDifference} :
    read call arguments = .ok d ↔ ∃ unit first last, splitTopLevel arguments ',' = [unit, first, last] ∧
      d = ⟨Text.trim unit, Text.trim first, Text.trim last⟩ ∧ Text.same (Text.trim unit) unitName = true ∧
      Text.trim first ≠ [] ∧ Text.trim last ≠ [] := by
  unfold read
  split
  · next unit first last hs =>
    simp only
    constructor
    · intro h
      split at h
      · cases h
      · next hne =>
        simp only [Bool.or_eq_true, List.isEmpty_iff, not_or] at hne
        split at h
        · next hu => exact ⟨unit, first, last, hs, (Except.ok.inj h).symm, hu, hne.1, hne.2⟩
        · cases h
    · rintro ⟨unit', first', last', he, rfl, hu, hf, hl⟩
      rw [hs] at he
      simp only [List.cons.injEq, and_true] at he
      obtain ⟨rfl, rfl, rfl⟩ := he
      rw [if_neg (by simp [hf, hl]), if_pos hu]
  · next h =>
    constructor
    · intro h'; cases h'
    · rintro ⟨unit, first, last, hs, -⟩
      exact absurd hs (h _ _ _)

theorem Call.parts_some (arguments : Text) :
    (Call.mk (some arguments)).parts = (splitTopLevel arguments ',').map Text.trim := rfl

theorem Call.wellFormed_iff {arguments : Text} :
    (Call.mk (some arguments)).WellFormed ↔ ∃ call d, read call arguments = .ok d := by
  constructor
  · rintro ⟨unit, first, last, hp, hu, hf, hl⟩
    rw [Call.parts_some] at hp
    obtain ⟨u, us, hs, rfl, hp1⟩ := List.map_eq_cons_iff.mp hp
    obtain ⟨f, fs, rfl, rfl, hp2⟩ := List.map_eq_cons_iff.mp hp1
    obtain ⟨l, ls, rfl, rfl, hp3⟩ := List.map_eq_cons_iff.mp hp2
    rw [List.map_eq_nil_iff] at hp3
    subst hp3
    exact ⟨[], _, read_eq_ok_iff.mpr ⟨u, f, l, hs, rfl, hu, hf, hl⟩⟩
  · rintro ⟨call, d, h⟩
    obtain ⟨u, f, l, hs, -, hu, hf, hl⟩ := read_eq_ok_iff.mp h
    exact ⟨_, _, _, by rw [Call.parts_some, hs]; rfl, hu, hf, hl⟩

/-- Where all calls are well-formed, the first is closed and has three arguments, of which the first is the unit. -/
theorem calls_wellFormed {text front inner : Text} (ho : opened? text = some (front, inner))
    (hw : ∀ c ∈ calls text, c.WellFormed) :
    ∃ n unit first last, closingIn ['('] inner = some n ∧ splitTopLevel (inner.take n) ',' = [unit, first, last] ∧
      Text.same (Text.trim unit) unitName = true ∧
      calls text = ⟨some (inner.take n)⟩ :: (calls (Text.trim first) ++ calls (Text.trim last)) ++
        calls (inner.drop (n + 1)) := by
  cases hc : closingIn ['('] inner with
  | none =>
    rw [calls_unclosed ho hc] at hw
    obtain ⟨_, _, _, hp, _⟩ := hw ⟨none⟩ List.mem_cons_self
    cases hp
  | some n =>
    obtain ⟨within, hcalls, hwithin, -⟩ := calls_closed ho hc
    obtain ⟨_, _, hok⟩ := Call.wellFormed_iff.mp (hw ⟨some (inner.take n)⟩ (by simp [hcalls]))
    obtain ⟨unit, first, last, hs, -, hu, -⟩ := read_eq_ok_iff.mp hok
    exact ⟨n, unit, first, last, rfl, hs, hu, by rw [hcalls, hwithin unit first last hs]⟩

/-! ## What the conversion does at the first call -/

/-- The first name of the function, cut out of a text: it is a call if a parenthesis follows, and otherwise the search
for a call goes on behind it. -/
theorem firstIn_startsCall_name {before : Option Char} {rest : Text} {n : Nat}
    (h : findKeyword functionName before rest = some n) :
    ∃ ms v u, rest = textOf ms ++ (v ++ u) ∧ (textOf ms).length = n ∧ v.length = functionName.length ∧ v ≠ [] ∧
      firstIn startsCall before (pieces rest) =
        if (u.dropWhile isBlank).head? = some '(' then some n
        else (firstIn startsCall v.getLast? (pieces u)).map (· + (n + functionName.length)) := by
  obtain ⟨ms, v, u, rfl, hp, rfl, hv, hbefore, hafter⟩ := findKeyword_split functionName_ne_nil isWord_functionName h
  have hlen := length_eq_of_lower_eq hv
  have hword := isWord_of_lower_eq hv isWord_functionName
  have hkey := startsKeyword_of_lower_eq hv hbefore hafter
  obtain ⟨c, v, rfl⟩ : ∃ c v', v = c :: v' := List.exists_cons_of_ne_nil fun e => by
    rw [e] at hlen
    exact functionName_ne_nil (List.length_eq_zero_iff.mp hlen.symm)
  refine ⟨ms, c :: v, u, rfl, rfl, hlen, List.cons_ne_nil _ _, ?_⟩
  have hcall : startsCall ((textOf ms).getLast?.or before) (c :: (v ++ u)) =
      ((u.dropWhile isBlank).head? == some '(') := by
    rw [← List.cons_append, startsCall, hkey, Bool.true_and, ← hlen, List.drop_left]
  have hbehind : ∀ b t, isWord b = true → startsCall (some b) t = false := fun b t hb => by
    rw [startsCall, startsKeyword_behind_word functionName_ne_nil isWord_functionName hb, Bool.false_and]
  rw [findKeyword_eq_firstIn, hp] at h
  rw [hp, firstIn_skip (fun _ _ => startsKeyword_of_startsCall) h, List.map_cons, List.cons_append, firstIn]
  simp only [textOf_append, textOf_pieces]
  rw [textOf_map_code, hcall]
  simp only [beq_iff_eq]
  split
  · simp
  · rw [firstIn_word hbehind (hword c List.mem_cons_self) fun d hd => hword d (List.mem_cons_of_mem _ hd),
      Option.map_map, Option.map_map, List.getLast?_cons, ← hlen]
    cases v.getLast? <;> (congr 1; funext k; simp only [Function.comp_apply, List.length_cons]; omega)

/-- Behind a name without a parenthesis the search for a call goes on. -/
theorem firstIn_startsCall_of_bare {done rest : Text} {n : Nat}
    (h : findKeyword functionName done.getLast? rest = some n)
    (hb : ((rest.drop (n + functionName.length)).dropWhile isBlank).head? ≠ some '(') :
    firstIn startsCall done.getLast? (pieces rest) =
      (firstIn startsCall (done ++ rest.take (n + functionName.length)).getLast?
        (pieces (rest.drop (n + functionName.length)))).map (· + (n + functionName.length)) := by
  obtain ⟨ms, v, u, rfl, rfl, hlen, hne, hfirst⟩ := firstIn_startsCall_name h
  have hdrop : (textOf ms ++ (v ++ u)).drop ((textOf ms).length + functionName.length) = u := by
    rw [← hlen, ← List.drop_drop, List.drop_left, List.drop_left]
  have htake : (textOf ms ++ (v ++ u)).take ((textOf ms).length + functionName.length) = textOf ms ++ v := by
    rw [← hlen, ← List.append_assoc, ← List.length_append, List.take_left]
  have hlast : (done ++ (textOf ms ++ v)).getLast? = v.getLast? := by
    rw [List.getLast?_append, List.getLast?_append, List.getLast?_eq_some_getLast hne, Option.some_or, Option.some_or]
  rw [hdrop] at hb
  rw [hfirst, if_neg hb, hdrop, htake, hlast]

/-- A name with a parenthesis behind it is a call. -/
theorem firstIn_startsCall_of_call {before : Option Char} {rest : Text} {n : Nat}
    (h : findKeyword functionName before rest = some n)
    (hb : ((rest.drop (n + functionName.length)).dropWhile isBlank).head? = some '(') :
    firstIn startsCall before (pieces rest) = some n := by
  obtain ⟨ms, v, u, rfl, rfl, hlen, -, hfirst⟩ := firstIn_startsCall_name h
  rw [← hlen, ← List.drop_drop, List.drop_left, List.drop_left] at hb
  rw [hfirst, if_pos hb]

section Step

variable {done rest inner : Text} {n : Nat}

theorem convertFrom_bare (hk : findKeyword functionName done.getLast? rest = some n)
    (hb : ((rest.drop (n + functionName.length)).dropWhile isBlank).head? ≠ some '(') :
    convertFrom done rest =
      convertFrom (done ++ rest.take (n + functionName.length)) (rest.drop (n + functionName.length)) := by
  rw [convertFrom]
  split
  · next h => rw [hk] at h; cases h
  · next h =>
    rw [hk] at h
    cases h
    simp only
    split
    · next inner ha => exact absurd (by rw [ha]; rfl) hb
    · rfl

theorem closingOffset?_parenthesis (inner : Text) :
    closingOffset? ('(' :: inner) = (closingIn ['('] inner).map (· + 1) := by
  rw [closingOffset?, if_neg (by decide), if_pos (by decide)]

/-- The conversion at a text that starts with a call, with `done` in front. An unclosed call is refused. The arguments
of another are read, and if that succeeds the conversion goes on at the start of what is written for the call. -/
def convertCall (done text : Text) : Except StageError Text :=
  match closingIn ['('] (behindParenthesis text) with
  | none => .error ⟨.callUnterminated, text⟩
  | some n =>
    let name := functionName.length + ((text.drop functionName.length).takeWhile isBlank).length
    match read (text.take (name + (n + 1) + 1)) ((behindParenthesis text).take n) with
    | .error e => .error e
    | .ok d => convertFrom done (d.render ++ (behindParenthesis text).drop (n + 1))

theorem convertFrom_parenthesis (hk : findKeyword functionName done.getLast? rest = some n)
    (ha : (rest.drop (n + functionName.length)).dropWhile isBlank = '(' :: inner) :
    convertFrom done rest = convertCall (done ++ rest.take n) (rest.drop n) := by
  have hbehind : behindParenthesis (rest.drop n) = inner := by
    rw [behindParenthesis, List.drop_drop, ha]
    rfl
  rw [convertFrom, convertCall, hbehind, List.drop_drop]
  split
  · next h => rw [hk] at h; cases h
  · next h =>
    rw [hk] at h
    cases h
    simp only
    split
    · next inner' ha' =>
      rw [ha] at ha'
      cases ha'
      cases hc : closingIn ['('] inner with
      | none =>
        split
        · rfl
        · next h => rw [closingOffset?_parenthesis, hc] at h; cases h
      | some k =>
        split
        · next h => rw [closingOffset?_parenthesis, hc] at h; cases h
        · next h =>
          rw [closingOffset?_parenthesis, hc] at h
          cases h
          simp only
          split
          · next hd => rw [Nat.add_sub_cancel] at hd; rw [hd]
          · next hd => rw [Nat.add_sub_cancel] at hd; rw [hd]
    · next hb => exact absurd ha (hb inner)

end Step

/-- Without a call the text stays as it is. -/
theorem convertFrom_of_none {done rest : Text} (h : firstIn startsCall done.getLast? (pieces rest) = none) :
    convertFrom done rest = .ok (done ++ rest) := by
  induction hlen : rest.length using Nat.strongRecOn generalizing done rest with
  | ind m ih =>
    cases hk : findKeyword functionName done.getLast? rest with
    | none =>
      rw [convertFrom]
      split
      · rfl
      · next hk' => rw [hk] at hk'; cases hk'
    | some n =>
      have hle := findKeyword_add_le hk
      have hpos : 0 < functionName.length := List.length_pos_iff.mpr functionName_ne_nil
      have hb : ((rest.drop (n + functionName.length)).dropWhile isBlank).head? ≠ some '(' := fun e => by
        rw [firstIn_startsCall_of_call hk e] at h
        cases h
      rw [firstIn_startsCall_of_bare hk hb, Option.map_eq_none_iff] at h
      rw [convertFrom_bare hk hb, ih _ (by simp only [List.length_drop]; omega) h rfl]
      simp

/-- **The first call.** The conversion goes on at the first call of the text. -/
theorem convertFrom_call {done rest : Text} {n : Nat}
    (h : firstIn startsCall done.getLast? (pieces rest) = some n) :
    convertFrom done rest = convertCall (done ++ rest.take n) (rest.drop n) := by
  induction hlen : rest.length using Nat.strongRecOn generalizing done rest n with
  | ind m ih =>
    cases hk : findKeyword functionName done.getLast? rest with
    | none =>
      rw [findKeyword_eq_firstIn] at hk
      rw [firstIn_eq_none_of_imp (fun _ _ => startsKeyword_of_startsCall) hk] at h
      cases h
    | some i =>
      have hle := findKeyword_add_le hk
      have hpos : 0 < functionName.length := List.length_pos_iff.mpr functionName_ne_nil
      by_cases hb : ((rest.drop (i + functionName.length)).dropWhile isBlank).head? = some '('
      · have hin := firstIn_startsCall_of_call hk hb
        rw [h, Option.some.injEq] at hin
        rw [← hin] at hk hb
        cases hd : (rest.drop (n + functionName.length)).dropWhile isBlank with
        | nil => rw [hd] at hb; cases hb
        | cons c inner =>
          rw [hd] at hb
          exact convertFrom_parenthesis hk (by rw [hd, ← Option.some.inj hb])
      · rw [firstIn_startsCall_of_bare hk hb] at h
        obtain ⟨j, hj, rfl⟩ := Option.map_eq_some_iff.mp h
        have hadd : rest.take (i + functionName.length + j) = _ := List.take_add
        rw [convertFrom_bare hk hb, ih _ (by simp only [List.length_drop]; omega) hj rfl, List.drop_drop,
          Nat.add_comm j, hadd, List.append_assoc]

end SqlDialect.TimeDifference
