import SqlDialect.Proofs.Calls
import SqlDialect.Proofs.Source

/-!
# Refusals of timestamp differences

A call is rewritten with copies of its two timestamps, in the other order. A refusal cuts its fragment out of the text
that the conversion has reached, from the name of the call on.

* `convertFrom_step`: the steps with sources are those of the conversion.
* `exists_sound`: all that is copied is a part of the statement.
-/

namespace SqlDialect.TimeDifference

/-! ## The steps with their sources -/

/-- How long the name is of the call that a text starts with, with the blanks behind it. -/
def nameLength (text : Text) : Nat := functionName.length + ((text.drop functionName.length).takeWhile isBlank).length

/-- Where the two timestamps of a call stand in the text between its parentheses. -/
def timestampStarts (arguments : Text) : Nat × Nat :=
  match splitTopLevel arguments ',' with
  | [unit, first, _] =>
    (behindSpaces arguments (unit.length + 1), behindSpaces arguments (unit.length + 1 + (first.length + 1)))
  | _ => (0, 0)

/-- What is written for a call, with copies of the timestamps out of its arguments. -/
def sourcedCall (arguments : List Sourced) (d : TimeDifference) : List Sourced :=
  let (first, last) := timestampStarts (charsOf arguments)
  added opening ++ (copied arguments last d.last ++
    (added middle ++ (copied arguments first d.first ++ added closing)))

/-- One step at a text that starts with a call, with `done` in front. -/
def stepCall (done rest : List Sourced) : Outcome :=
  let name := nameLength (charsOf rest)
  let inner := rest.drop (name + 1)
  match closingIn ['('] (charsOf inner) with
  | none => .refused ⟨.callUnterminated, rest⟩
  | some n =>
    let call := rest.take (name + (n + 1) + 1)
    match read (charsOf call) (charsOf (inner.take n)) with
    | .error e => .refused ⟨e.cause, call⟩
    | .ok d => .next done (sourcedCall (inner.take n) d ++ inner.drop (n + 1))

/-- One step of the conversion. -/
def step (done rest : List Sourced) : Outcome :=
  match findKeyword functionName (charsOf done).getLast? (charsOf rest) with
  | none => .finished (done ++ rest)
  | some n =>
    if (((charsOf rest).drop (n + functionName.length)).dropWhile isBlank).head? = some '(' then
      stepCall (done ++ rest.take n) (rest.drop n)
    else .next (done ++ rest.take (n + functionName.length)) (rest.drop (n + functionName.length))

/-! ## What is copied -/

/-- The timestamps stand where they are copied from. -/
theorem timestamps_at {call arguments : Text} {d : TimeDifference} (h : read call arguments = .ok d) :
    d.first <+: arguments.drop (timestampStarts arguments).1 ∧
      d.last <+: arguments.drop (timestampStarts arguments).2 := by
  obtain ⟨unit, first, last, hs, rfl, -, hfirst, hlast⟩ := read_eq_ok_iff.mp h
  have hj := joinParts_splitPieces ',' 0 (pieces arguments)
  rw [textOf_pieces] at hj
  have hparts := hs
  rw [splitTopLevel, List.cons.injEq] at hparts
  rw [hparts.1, hparts.2] at hj
  have harguments : arguments = unit ++ ',' :: (first ++ ',' :: last) := by
    rw [← hj]
    simp [joinParts]
  have hbehind : arguments.drop (unit.length + 1) = first ++ ',' :: last := by
    rw [harguments, ← List.drop_drop, List.drop_left]
    rfl
  rw [timestampStarts, hs]
  refine ⟨trim_at ?_ hfirst, trim_at ?_ hlast⟩
  · rw [hbehind]
    exact List.prefix_append _ _
  · rw [← List.drop_drop, hbehind, ← List.drop_drop, List.drop_left]
    exact List.prefix_refl _

/-- With copies of the timestamps a call is written as before. -/
theorem charsOf_sourcedCall {call : Text} {arguments : List Sourced} {d : TimeDifference}
    (h : read call (charsOf arguments) = .ok d) : charsOf (sourcedCall arguments d) = d.render := by
  obtain ⟨hfirst, hlast⟩ := timestamps_at h
  simp only [sourcedCall, charsOf_append, charsOf_added, charsOf_copied hfirst, charsOf_copied hlast, render,
    List.append_assoc]

/-- A call is refused with itself. It may hold what has been written already, so the cause does not point ahead. -/
theorem read_error {call arguments : Text} {e : StageError} (h : read call arguments = .error e) :
    e.fragment = call ∧ pointsAhead e.cause = false := by
  unfold read at h
  split at h
  · simp only at h
    split at h
    · cases h
      exact ⟨rfl, rfl⟩
    · split at h
      · cases h
      · cases h
        exact ⟨rfl, rfl⟩
  · cases h
    exact ⟨rfl, rfl⟩

/-! ## The steps -/

theorem behindParenthesis_eq_drop (text : Text) : behindParenthesis text = text.drop (nameLength text + 1) := by
  have hblanks : (text.drop functionName.length).dropWhile isBlank =
      (text.drop functionName.length).drop ((text.drop functionName.length).takeWhile isBlank).length := by
    conv => rhs; arg 2; rw [← List.takeWhile_append_dropWhile (p := isBlank) (l := text.drop functionName.length)]
    exact List.drop_left.symm
  rw [behindParenthesis, hblanks, List.drop_drop, List.tail_drop, nameLength]

/-- The step at a call with sources is that of the conversion. -/
theorem convertCall_stepCall (done rest : List Sourced) :
    convertCall (charsOf done) (charsOf rest) =
      match stepCall done rest with
      | .finished M => .ok (charsOf M)
      | .refused r => .error r.error
      | .next done' rest' => convertFrom (charsOf done') (charsOf rest') := by
  rw [convertCall, stepCall, behindParenthesis_eq_drop, ← charsOf_drop]
  cases hc : closingIn ['('] (charsOf (rest.drop (nameLength (charsOf rest) + 1))) with
  | none => rfl
  | some n =>
    have hname : functionName.length + (((charsOf rest).drop functionName.length).takeWhile isBlank).length =
        nameLength (charsOf rest) := rfl
    simp only [hname, ← charsOf_take]
    cases hd : read (charsOf (rest.take (nameLength (charsOf rest) + (n + 1) + 1)))
        (charsOf ((rest.drop (nameLength (charsOf rest) + 1)).take n)) with
    | error e => simp only [Refusal.error, ← (read_error hd).1]
    | ok d => simp only [charsOf_append, charsOf_sourcedCall hd, charsOf_drop]

/-- **The steps with sources are those of the conversion.** -/
theorem convertFrom_step (done rest : List Sourced) :
    convertFrom (charsOf done) (charsOf rest) =
      match step done rest with
      | .finished M => .ok (charsOf M)
      | .refused r => .error r.error
      | .next done' rest' => convertFrom (charsOf done') (charsOf rest') := by
  cases hk : findKeyword functionName (charsOf done).getLast? (charsOf rest) with
  | none =>
    have hnone := firstIn_eq_none_of_imp (fun _ _ => startsKeyword_of_startsCall) (findKeyword_eq_firstIn .. ▸ hk)
    rw [convertFrom_of_none hnone]
    simp only [step, hk, charsOf_append]
  | some n =>
    by_cases hb : (((charsOf rest).drop (n + functionName.length)).dropWhile isBlank).head? = some '('
    · obtain ⟨inner, ha⟩ := List.head?_eq_some_iff.mp hb
      rw [convertFrom_parenthesis hk ha, ← charsOf_take, ← charsOf_append, ← charsOf_drop, convertCall_stepCall]
      simp only [step, hk, hb, if_true]
    · rw [convertFrom_bare hk hb]
      simp only [step, hk, hb, if_false, charsOf_append, charsOf_take, charsOf_drop]

/-- Behind the name of a call there are no fewer measured letters than are written for it. -/
theorem countP_le_of_stepCall {done rest done' rest' : List Sourced} (h : stepCall done rest = .next done' rest') :
    (charsOf rest').countP isMeasured ≤ ((charsOf rest).drop functionName.length).countP isMeasured := by
  unfold stepCall at h
  simp only at h
  split at h
  · cases h
  · next n hc =>
    split at h
    · cases h
    · next d hd =>
      cases h
      have hrender := render_countP_le hd
      rw [charsOf_append, charsOf_sourcedCall hd, List.countP_append]
      simp only [charsOf_take, charsOf_drop] at hrender ⊢
      have hclosing := (List.eraseIdx_sublist ((charsOf rest).drop (nameLength (charsOf rest) + 1)) n).countP_le
        (p := isMeasured)
      rw [List.eraseIdx_eq_take_drop_succ, List.countP_append] at hclosing
      have hopening := (List.drop_sublist_drop_left (charsOf rest)
        (by rw [nameLength]; omega : functionName.length ≤ nameLength (charsOf rest) + 1)).countP_le
        (p := isMeasured)
      omega

/-- What is ahead holds fewer measured letters after each step. -/
theorem countP_lt_of_next {done rest done' rest' : List Sourced} (h : step done rest = .next done' rest') :
    (charsOf rest').countP isMeasured < (charsOf rest).countP isMeasured := by
  unfold step at h
  split at h
  · cases h
  · next n hk =>
    obtain ⟨b, hb, -⟩ := findKeyword_startsKeyword hk
    have hname := countP_drop_lt hb
    have hfront := (List.drop_sublist n (charsOf rest)).countP_le (p := isMeasured)
    split at h
    · have hcall := countP_le_of_stepCall h
      rw [charsOf_drop, List.drop_drop] at hcall
      omega
    · cases h
      rw [charsOf_drop]
      omega

/-! ## What the steps keep -/

theorem stepCall_keeps {query : Text} {done rest : List Sourced} (h : Faithful query (done ++ rest))
    (hname : functionName.length ≤ rest.length) :
    match stepCall done rest with
    | .finished M => Sound query (.ok M)
    | .refused r => Sound query (.error r)
    | .next done' rest' => Faithful query (done' ++ rest') := by
  have hpos : 0 < functionName.length := List.length_pos_iff.mpr functionName_ne_nil
  have hrest : Faithful query rest := h.mono (List.suffix_append _ _).isInfix
  have hne : rest ≠ [] := List.ne_nil_of_length_pos (by omega)
  have hinner : Faithful query (rest.drop (nameLength (charsOf rest) + 1)) :=
    hrest.mono (List.drop_suffix _ _).isInfix
  cases hc : closingIn ['('] (charsOf (rest.drop (nameLength (charsOf rest) + 1))) with
  | none =>
    simp only [stepCall, hc]
    exact ⟨hne, hrest, fun hahead => by cases hahead⟩
  | some n =>
    cases hd : read (charsOf (rest.take (nameLength (charsOf rest) + (n + 1) + 1)))
        (charsOf ((rest.drop (nameLength (charsOf rest) + 1)).take n)) with
    | error e =>
      simp only [stepCall, hc, hd]
      refine ⟨by simp [List.take_eq_nil_iff, hne], hrest.mono (List.take_prefix _ _).isInfix, fun hahead => ?_⟩
      rw [(read_error hd).2] at hahead
      cases hahead
    | ok d =>
      simp only [stepCall, hc, hd, sourcedCall, List.append_assoc]
      have harguments : Faithful query ((rest.drop (nameLength (charsOf rest) + 1)).take n) :=
        hinner.mono (List.take_prefix _ _).isInfix
      exact (h.mono (List.prefix_append _ _).isInfix).append_added
        ((harguments.mono (copied_within _ _ _)).append_added
          ((harguments.mono (copied_within _ _ _)).append_added
            (hinner.mono (List.drop_suffix _ _).isInfix) (by decide +kernel))
          (by decide +kernel))
        (by decide +kernel)

theorem step_keeps {query : Text} {done rest : List Sourced} (h : Faithful query (done ++ rest)) :
    match step done rest with
    | .finished M => Sound query (.ok M)
    | .refused r => Sound query (.error r)
    | .next done' rest' => Faithful query (done' ++ rest') := by
  cases hk : findKeyword functionName (charsOf done).getLast? (charsOf rest) with
  | none =>
    simp only [step, hk]
    exact h
  | some n =>
    by_cases hb : (((charsOf rest).drop (n + functionName.length)).dropWhile isBlank).head? = some '('
    · simp only [step, hk, hb, if_true]
      have hle := findKeyword_add_le hk
      rw [length_charsOf] at hle
      refine stepCall_keeps ?_ (by rw [List.length_drop]; omega)
      rwa [List.append_assoc, List.take_append_drop]
    · simp only [step, hk, hb, if_false]
      rwa [List.append_assoc, List.take_append_drop]

/-- **The stage of the timestamp differences.** Its answer comes from steps in which all that is copied is a part of
the statement. -/
theorem exists_sound {query : Text} {M : List Sourced} (h : Faithful query M) :
    ∃ out, Leads step [] M out ∧ convert (charsOf M) = answer out ∧ Sound query out := by
  obtain ⟨out, hleads⟩ := Leads.exists_of_lt (fun M => (charsOf M).countP isMeasured)
    (fun _ _ _ _ => countP_lt_of_next) [] M
  exact ⟨out, hleads, hleads.answer_eq convertFrom_step,
    hleads.invariant (P := fun done rest => Faithful query (done ++ rest)) h fun _ _ h => step_keeps h⟩

end SqlDialect.TimeDifference
