import SqlDialect.Proofs.FunctionName
import SqlDialect.Proofs.Interval.Balanced
import SqlDialect.Proofs.TimeDifference.Step

/-!
# What the stages preserve

Intervals, timestamp differences and function names are converted by moving whole balanced pieces of a text and writing
balanced text around them. None of these stages opens a comment, a literal or a bracket that it does not close.

* `wellFormed_stages`: the three stages lead from well-formed texts to well-formed texts.
-/

namespace SqlDialect

/-- **Well-formed texts.** Each of the three stages leads from a well-formed text to a well-formed text, where it
succeeds. -/
theorem wellFormed_stages {text : Text} (h : WellFormed text) :
    (∀ out, Interval.convert text = .ok out → WellFormed out) ∧
      (∀ out, TimeDifference.convert text = .ok out → WellFormed out) ∧ WellFormed (FunctionName.convert text) :=
  ⟨fun _ => Interval.wellFormed_convert h, fun _ => TimeDifference.wellFormed_convert h,
    FunctionName.wellFormed_convert h⟩

/-- An expression that fills a parenthesis within the base of another, a call within a call, and brackets in
literals. -/
theorem wellFormed_stages_nested :
    let text := "f[(x - interval -n day)] - interval '(' day, timestampdiff(second, if(b), ')')".toList
    let dated := "datetime(f[datetime(x, (-(-n)) || ' days')], (-('(')) || ' days'), timestampdiff(second, if(b), ')')".toList
    let timed := "f[(x - interval -n day)] - interval '(' day, ((julianday(')') - julianday(if(b))) * 86400)".toList
    WellFormed text ∧ (Interval.convert text = .ok dated ∧ WellFormed dated) ∧
      (TimeDifference.convert text = .ok timed ∧ WellFormed timed) ∧ WellFormed (FunctionName.convert text) := by
  intro text dated timed
  have htext : WellFormed text := by decide +kernel
  have hdated : Interval.convert text = .ok dated := eq_ok_of_toOption (by decide +kernel)
  have htimed : TimeDifference.convert text = .ok timed := eq_ok_of_toOption (by decide +kernel)
  obtain ⟨hinterval, hdifference, hname⟩ := wellFormed_stages htext
  exact ⟨htext, ⟨hdated, hinterval dated hdated⟩, ⟨htimed, hdifference timed htimed⟩, hname⟩

end SqlDialect
