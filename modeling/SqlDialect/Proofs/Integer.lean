import Mathlib.Algebra.Group.Int.Defs
import Mathlib.Algebra.Group.Nat.Defs
import Mathlib.Data.List.Induction
import Mathlib.Data.List.TakeWhile
import SqlDialect.Proofs.Arithmetic
import SqlDialect.Value

/-!
# Integers among the arguments

An integer is written with an optional sign and one decimal digit or more, and leading zeros do not count. An argument
that is written so is that integer if it has a place among the 64-bit integers and the nearest binary number if it has
none. The digits are read one by one without a bound, so nothing wraps at the ends of the range.

* `integer?_iff`: an integer is read from exactly the texts that write it.
* `float?_of_writes`: what is written as an integer can be read as a binary number.
* `ofArgument_integer`: which arguments are integers, and what becomes of the others that are written so.
-/

namespace SqlDialect

/-! ## Written integers -/

/-- The text is made of one decimal digit or more, which denote the number. -/
inductive Denotes : Text → Nat → Prop where
  | single {d : Nat} : d < 10 → Denotes [Nat.digitChar d] d
  | snoc {t : Text} {n d : Nat} : Denotes t n → d < 10 → Denotes (t ++ [Nat.digitChar d]) (10 * n + d)

/-- The text is an optional sign with decimal digits behind it, which denote the integer. -/
inductive Writes : Text → Int → Prop where
  | bare {t : Text} {n : Nat} : Denotes t n → Writes t n
  | plus {t : Text} {n : Nat} : Denotes t n → Writes ('+' :: t) n
  | minus {t : Text} {n : Nat} : Denotes t n → Writes ('-' :: t) (-n)

section Digits

open Decimal

variable {t : Text} {n : Nat} {c : Char}

theorem digitChar_of_lt : ∀ d < 10, (Nat.digitChar d).isDigit = true ∧ digitValue (Nat.digitChar d) = d := by decide

/-- A digit is the digit of its value. -/
theorem digitChar_digitValue (h : c.isDigit = true) : digitValue c < 10 ∧ Nat.digitChar (digitValue c) = c := by
  have hchar : ∀ d < 10, Nat.digitChar d = Char.ofNat (48 + d) := by decide
  have hrange : 48 ≤ c.toNat ∧ c.toNat ≤ 57 := by
    simpa [Char.isDigit, UInt32.le_iff_toNat_le] using h
  have hlt : digitValue c < 10 := by
    show c.toNat - 48 < 10
    omega
  refine ⟨hlt, ?_⟩
  rw [hchar _ hlt, show 48 + digitValue c = c.toNat from Nat.add_sub_cancel' hrange.1, Char.ofNat_toNat]

theorem value_append (t : Text) (c : Char) : value (t ++ [c]) = 10 * value t + digitValue c := by
  rw [value, valueFrom, List.foldl_append]
  rfl

theorem isDigits_append (h : isDigits t = true) : isDigits (t ++ [c]) = c.isDigit := by
  rw [isDigits, Bool.and_eq_true] at h
  rw [isDigits, List.all_append, h.2]
  simp

/-- The digits of a number are the texts that are read as the number. -/
theorem denotes_iff : Denotes t n ↔ isDigits t = true ∧ value t = n := by
  constructor
  · intro h
    induction h with
    | single hd =>
      obtain ⟨hdigit, hvalue⟩ := digitChar_of_lt _ hd
      exact ⟨by simp [isDigits, hdigit], by simp [value, valueFrom, hvalue]⟩
    | snoc _ hd ih =>
      obtain ⟨hdigit, hvalue⟩ := digitChar_of_lt _ hd
      exact ⟨by rw [isDigits_append ih.1, hdigit], by rw [value_append, ih.2, hvalue]⟩
  · rintro ⟨h, rfl⟩
    induction t using List.reverseRecOn with
    | nil => cases h
    | append_singleton t c ih =>
      cases t with
      | nil =>
        obtain ⟨hlt, hc⟩ := digitChar_digitValue (c := c) (by simpa [isDigits] using h)
        have hsingle := Denotes.single hlt
        rw [hc] at hsingle
        simpa [value, valueFrom] using hsingle
      | cons b t =>
        have hinit : isDigits (b :: t) = true := by
          simp only [isDigits, List.all_append, Bool.and_eq_true] at h ⊢
          exact ⟨rfl, h.2.1⟩
        rw [isDigits_append hinit] at h
        obtain ⟨hlt, hc⟩ := digitChar_digitValue h
        have hsnoc := (ih hinit).snoc hlt
        rwa [hc, ← value_append] at hsnoc

/-- Digits have no sign in front. -/
theorem splitSign_of_denotes (h : Denotes t n) : splitSign t = (false, t) := by
  have hall := (denotes_iff.mp h).1
  unfold splitSign
  split
  · cases hall
  · cases hall
  · rfl

end Digits

/-- What a sign in front of digits does. -/
theorem Writes.splitSign {t : Text} {n : Int} (h : Writes t n) :
    ∃ negative digits m, Decimal.splitSign t = (negative, digits) ∧ Denotes digits m ∧
      n = if negative then -(m : Int) else m := by
  cases h with
  | bare h => exact ⟨false, _, _, splitSign_of_denotes h, h, rfl⟩
  | plus h => exact ⟨false, _, _, rfl, h, rfl⟩
  | minus h => exact ⟨true, _, _, rfl, h, rfl⟩

/-- **An integer is read** from exactly the texts that write it. -/
theorem integer?_iff {t : Text} {n : Int} : Decimal.integer? t = some n ↔ Writes t n := by
  constructor
  · intro h
    unfold Decimal.integer? Decimal.splitSign at h
    split at h
    next negative digits hsplit =>
    rw [Option.ite_none_right_eq_some, Option.some.injEq] at h
    obtain ⟨hdigits, rfl⟩ := h
    have hwrite := denotes_iff.mpr ⟨hdigits, rfl⟩
    split at hsplit
    · cases hsplit
      exact .minus hwrite
    · cases hsplit
      exact .plus hwrite
    · cases hsplit
      exact .bare hwrite
  · intro h
    obtain ⟨negative, digits, m, hsplit, hdigits, rfl⟩ := h.splitSign
    obtain ⟨hall, hvalue⟩ := denotes_iff.mp hdigits
    rw [Decimal.integer?, hsplit]
    simp only [hall, if_true, hvalue]

/-- A text writes one integer at most. -/
theorem Writes.unique {t : Text} {m n : Int} (hm : Writes t m) (hn : Writes t n) : m = n := by
  have h := integer?_iff.mpr hm
  rw [integer?_iff.mpr hn] at h
  exact (Option.some.inj h).symm

/-! ## As a binary number -/

/-- Digits are the numeral of their number. -/
theorem numeral?_of_denotes {t : Text} {n : Nat} (h : Denotes t n) (negative : Bool) :
    Decimal.numeral? negative t = some ⟨negative, n, 0⟩ := by
  obtain ⟨hdigits, hvalue⟩ := denotes_iff.mp h
  rw [Decimal.isDigits, Bool.and_eq_true, Bool.not_eq_true', List.all_eq_true] at hdigits
  have htake : t.takeWhile Char.isDigit = t := List.takeWhile_eq_self_iff.mpr hdigits.2
  have hdrop : t.dropWhile Char.isDigit = [] := List.dropWhile_eq_nil_iff.mpr hdigits.2
  simp [Decimal.numeral?, htake, hdrop, hdigits.1, hvalue, Decimal.exponent?]

/-- Digits have no letter case. -/
theorem lower_of_denotes {t : Text} {n : Nat} (h : Denotes t n) : Text.lower t = t := by
  obtain ⟨hdigits, -⟩ := denotes_iff.mp h
  rw [Decimal.isDigits, Bool.and_eq_true, List.all_eq_true] at hdigits
  rw [Text.lower]
  refine (List.map_congr_left fun c hc => ?_).trans (List.map_id t)
  have hrange : c.toNat ≤ 57 := by
    have hdigit := hdigits.2 c hc
    simp only [Char.isDigit, Bool.and_eq_true, decide_eq_true_eq, UInt32.le_iff_toNat_le] at hdigit
    exact hdigit.2
  have hletter : ¬ (c.val ≥ 'A'.val ∧ c.val ≤ 'Z'.val) := by
    rintro ⟨h, -⟩
    rw [ge_iff_le, UInt32.le_iff_toNat_le] at h
    exact absurd (Nat.le_trans h hrange) (by decide)
  exact dif_neg hletter

/-- No word is made of digits. -/
theorem ne_of_denotes {t : Text} {n : Nat} (h : Denotes t n) {word : String}
    (hword : Decimal.isDigits word.toList = false) : String.ofList t ≠ word := by
  rintro rfl
  rw [String.toList_ofList, (denotes_iff.mp h).1] at hword
  cases hword

/-- **What is written as an integer** can be read as a binary number, the one nearest to it. -/
theorem float?_of_writes {t : Text} {n : Int} (h : Writes t n) (hn : n ≠ 0) :
    Decimal.float? t = some (Decimal.Numeral.toFloat ⟨decide (n < 0), n.natAbs, 0⟩) := by
  obtain ⟨negative, digits, m, hsplit, hdigits, rfl⟩ := h.splitSign
  have hnumeral : Decimal.float? t = some (Decimal.Numeral.toFloat ⟨negative, m, 0⟩) := by
    rw [Decimal.float?, hsplit]
    simp only [lower_of_denotes hdigits]
    split
    · next he => exact absurd he (ne_of_denotes hdigits (by decide))
    · next he => exact absurd he (ne_of_denotes hdigits (by decide))
    · next he => exact absurd he (ne_of_denotes hdigits (by decide))
    · rw [numeral?_of_denotes hdigits, Option.map_some]
  rw [hnumeral]
  cases negative with
  | true =>
    simp only [if_true, Int.neg_ne_zero] at hn ⊢
    rw [decide_eq_true (by omega : -(m : Int) < 0), Int.natAbs_neg, Int.natAbs_natCast]
  | false =>
    simp only [Bool.false_eq_true, if_false]
    rw [decide_eq_false (by omega : ¬ (m : Int) < 0), Int.natAbs_natCast]

/-! ## Arguments -/

namespace Value

theorem int?_iff {t : Text} {i : Int64} : int? t = some i ↔ Writes t i.toInt := by
  rw [← integer?_iff, int?, Int64.toInt_minValue, Int64.toInt_maxValue, Option.bind_eq_some_iff]
  simp only [Option.ite_none_right_eq_some, Option.some.injEq]
  constructor
  · rintro ⟨n, hn, ⟨hmin, hmax⟩, rfl⟩
    rw [Int64.toInt_ofInt_of_le hmin (by omega), hn]
  · intro h
    have hmax := i.toInt_lt
    exact ⟨_, h, ⟨i.le_toInt, by omega⟩, Int64.ofInt_toInt i⟩

/-- An argument is an integer exactly if one can be read from it. -/
theorem ofArgument_eq_int_iff {s : String} {i : Int64} : ofArgument s = .int i ↔ int? s.toList = some i := by
  unfold ofArgument
  split
  · next n hn => rw [hn, int.injEq, Option.some.injEq]
  · next hn =>
    rw [hn]
    split
    · simp
    · split <;> simp

theorem ofArgument_eq_float {s : String} {x : Float} (hint : int? s.toList = none)
    (hfloat : Decimal.float? s.toList = some x) : ofArgument s = .float x := by
  simp only [ofArgument, hint, hfloat]

/-- The decimal text of a 64-bit integer. -/
theorem toList_toString (i : Int64) : (toString i).toList = Arithmetic.decimal i.toInt := by
  rw [show toString i = i.toInt.repr from rfl, Int.repr_eq_if, Arithmetic.decimal]
  by_cases h : i.toInt < 0
  · have hnat : (-i.toInt).toNat = i.toInt.natAbs := by omega
    rw [if_neg (Int.not_le.mpr h), if_pos h, hnat, String.toList_append, Nat.toList_repr]
    rfl
  · have hnat : i.toInt.toNat = i.toInt.natAbs := by omega
    rw [if_pos (Int.not_lt.mp h), if_neg h, hnat, Nat.toList_repr]

/-- **Integers among the arguments.** An argument is a 64-bit integer exactly if it writes an integer that has a place
among them, and the nearest binary number if that integer has none. What a 64-bit integer looks like in decimal is that
integer, and an argument that is a text is left as it is. -/
theorem ofArgument_integer (s : String) :
    (∀ i : Int64, ofArgument s = .int i ↔ ∃ n : Int, Writes s.toList n ∧ -2 ^ 63 ≤ n ∧ n ≤ 2 ^ 63 - 1 ∧ i.toInt = n) ∧
      (∀ n : Int, Writes s.toList n → n < -2 ^ 63 ∨ 2 ^ 63 - 1 < n →
        ofArgument s = .float (Decimal.Numeral.toFloat ⟨decide (n < 0), n.natAbs, 0⟩)) ∧
      (∀ i : Int64, ofArgument (toString i) = .int i) ∧
      ∀ t, ofArgument s = .text t → t = s := by
  refine ⟨fun i => ?_, fun n hn hrange => ?_, fun i => ?_, fun t ht => ofArgument_text ht⟩
  · rw [ofArgument_eq_int_iff, int?_iff]
    constructor
    · intro h
      have hmax := i.toInt_lt
      exact ⟨_, h, i.le_toInt, by omega, rfl⟩
    · rintro ⟨n, h, -, -, rfl⟩
      exact h
  · refine ofArgument_eq_float ?_ (float?_of_writes hn (by omega))
    rw [Option.eq_none_iff_forall_ne_some]
    intro i hi
    have hmin := i.le_toInt
    have hmax := i.toInt_lt
    rw [(int?_iff.mp hi).unique hn] at hmin hmax
    omega
  · rw [ofArgument_eq_int_iff, int?_iff, toList_toString, ← integer?_iff, Arithmetic.integer?_decimal]

/-- The least 64-bit integer with zeros in front, the first number above the greatest one, and a name. -/
theorem ofArgument_integer_ends :
    Writes "-009223372036854775808".toList (-2 ^ 63) ∧ ofArgument "-009223372036854775808" = .int Int64.minValue ∧
      Writes "+9223372036854775808".toList (2 ^ 63) ∧
      ofArgument "+9223372036854775808" = .float (Decimal.Numeral.toFloat ⟨false, 2 ^ 63, 0⟩) ∧
      ofArgument "sfc-01" = .text "sfc-01" := by
  have hleast : Writes "-009223372036854775808".toList (-2 ^ 63) := integer?_iff.mp (by decide +kernel)
  have habove : Writes "+9223372036854775808".toList (2 ^ 63) := integer?_iff.mp (by decide +kernel)
  have hname : ofArgument "sfc-01" = .text "sfc-01" := rfl
  obtain ⟨hint, -, -, -⟩ := ofArgument_integer "-009223372036854775808"
  obtain ⟨-, hfloat, -, -⟩ := ofArgument_integer "+9223372036854775808"
  refine ⟨hleast, (hint _).mpr ⟨_, hleast, by decide, by decide, by decide⟩, habove, ?_, hname⟩
  exact hfloat _ habove (.inr (by decide))

end Value

end SqlDialect
