import SqlDialect.Translator
import SqlDialect.Proofs.Interval.Source
import SqlDialect.Proofs.TimeDifference.Source

/-!
# The fragment of a refusal

A refusal carries the statement as it was given, and a fragment that is cut out of what the stages have made of it. The
two are compared character by character: each character of the fragment either has a position in the statement, or has
been added by a rewrite.

* `Translator.translate_fragment`: the fragment is a part of the statement if and only if no rewrite has added one of
  its characters.
-/

namespace SqlDialect

/-- The statement is refused, by the stage of the intervals or by that of the timestamp differences behind it. -/
inductive Refuses (query : Text) (r : Refusal) : Prop where
  | interval : Leads Interval.step [] (sourced query) (.error r) → Refuses query r
  | timeDifference (M : List Sourced) : Leads Interval.step [] (sourced query) (.ok M) →
      Leads TimeDifference.step [] M (.error r) → Refuses query r

theorem Refuses.unique {query : Text} {r r' : Refusal} (h : Refuses query r) (h' : Refuses query r') : r' = r := by
  cases h with
  | interval h =>
    cases h' with
    | interval h' => exact Except.error.inj (h.unique h')
    | timeDifference M h' => cases h.unique h'
  | timeDifference M h hd =>
    cases h' with
    | interval h' => cases h.unique h'
    | timeDifference M' h' hd' =>
      cases h.unique h'
      exact Except.error.inj (hd.unique hd')

namespace Translator

/-- The two stages that may refuse a statement, with a sound refusal. -/
theorem refuses_of_run {tr : Translator} {query : Text} {e : StageError} (h : tr.run query = .error e) :
    ∃ r, Refuses query r ∧ r.error = e ∧ r.Sound query := by
  obtain ⟨out, hleads, hconvert, hsound⟩ := Interval.exists_sound query
  rw [run, convertTimes, hconvert] at h
  cases out with
  | error r =>
    simp only [answer] at h
    cases h
    exact ⟨r, .interval hleads, rfl, hsound⟩
  | ok M =>
    obtain ⟨out, hleads', hconvert', hsound'⟩ := TimeDifference.exists_sound hsound
    simp only [answer, hconvert'] at h
    cases out with
    | error r =>
      cases h
      exact ⟨r, .timeDifference M hleads hleads', rfl, hsound'⟩
    | ok M' => cases h

/-- **The fragment of a refusal.** A refusal carries the statement as it was given, and a fragment that is not empty.
There is one refusal with sources that it comes from, and its fragment is a part of the statement if and only if no
rewrite has added one of its characters. If the cause points ahead, none has. -/
theorem translate_fragment {tr : Translator} {query : Text} {e : StatementError} (h : tr.translate query = .error e) :
    e.query = query ∧ e.cause.fragment ≠ [] ∧ (pointsAhead e.cause.cause = true → e.cause.fragment <:+: query) ∧
      ∃ r, (∀ r', Refuses query r' ↔ r' = r) ∧ r.error = e.cause ∧
        (r.fragment <:+: sourced query ↔ IsCopied r.fragment) ∧
        (IsCopied r.fragment → e.cause.fragment <:+: query) := by
  obtain ⟨hquery, hrun⟩ := translate_error h
  obtain ⟨r, hr, herror, hsound⟩ := refuses_of_run hrun
  have hfragment : e.cause.fragment = charsOf r.fragment := by rw [← herror]; rfl
  have hcause : e.cause.cause = r.cause := by rw [← herror]; rfl
  rw [hfragment, hcause]
  refine ⟨hquery, fun hnil => hsound.ne_nil ?_, fun hahead => charsOf_infix (hsound.ahead hahead), r,
    fun r' => ⟨hr.unique, fun he => he ▸ hr⟩, herror, hsound.faithful.infix_iff,
    fun hcopied => charsOf_infix (hsound.faithful.infix_iff.mpr hcopied)⟩
  exact List.map_eq_nil_iff.mp hnil

/-- The refusal of a call with an interval in it cannot be found in the statement. -/
theorem fragment_of_rewritten_call :
    let query := "select timestampdiff(minute, a + interval 1 day, b)".toList
    let fragment := "timestampdiff(minute, datetime(a, '+' || 1 || ' days'), b)".toList
    ({} : Translator).translate query = .error ⟨query, ⟨.differenceUnit "minute".toList, fragment⟩⟩ ∧
      ¬ fragment <:+: query ∧ ∃ r, Refuses query r ∧ ¬ IsCopied r.fragment := by
  intro query fragment
  have herror : ({} : Translator).translate query = .error ⟨query, ⟨.differenceUnit "minute".toList, fragment⟩⟩ := by
    have hrefused : (match ({} : Translator).translate query with | .ok _ => none | .error e => some e) =
        some ⟨query, ⟨.differenceUnit "minute".toList, fragment⟩⟩ := by decide +kernel
    split at hrefused
    · cases hrefused
    · next e he => rw [he, Option.some.inj hrefused]
  have hnot : ¬ fragment <:+: query := by decide +kernel
  obtain ⟨-, -, -, r, hr, -, -, hcopied⟩ := translate_fragment herror
  exact ⟨herror, hnot, r, (hr r).mpr rfl, fun h => hnot (hcopied h)⟩

end Translator

end SqlDialect
