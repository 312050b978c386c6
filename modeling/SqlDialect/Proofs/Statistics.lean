import Mathlib.Algebra.BigOperators.Group.List.Lemmas
import Mathlib.Algebra.Order.BigOperators.Group.List
import Mathlib.Analysis.Real.Sqrt
import Mathlib.Data.List.Induction
import Mathlib.Data.List.ReduceOption
import Mathlib.Tactic.FieldSimp
import Mathlib.Tactic.Ring
import SqlDialect.Statistics

/-!
# The standard deviation is the two-pass one

A deviation is kept in one pass: each value moves the mean and adds a product of its differences from the old and from
the new mean. In exact arithmetic the state is nevertheless a function of the values alone. What one step keeps is not
the sum of the squared differences from the mean, since the mean moves, but that of the squared differences from any
point (`Sums.squares`).

* `Sums.step`: one more value, in the state and among the values.
* `sums_ofList`: the state after a list of values, some of them missing.
* `ofList_exact`: it is the two-pass statistic, whatever the order of the values.
-/

namespace SqlDialect.Deviation

section Field

variable {α : Type} [Field α] {d e : Deviation α} {xs ys : List α}

/-- The state holds the count and the mean of the values, and the sum of their squared differences from any point. -/
structure Sums (d : Deviation α) (xs : List α) : Prop where
  count : d.count = xs.length
  mean : d.mean = xs.sum / xs.length
  squares : ∀ c, (xs.map fun x => (x - c) ^ 2).sum = d.sumSq + d.count * (d.mean - c) ^ 2

theorem sums_start : Sums (start : Deviation α) [] :=
  ⟨rfl, by simp [start], fun c => by simp [start]⟩

/-- The sum of the squared differences from the mean. -/
theorem Sums.sumSq_eq (h : Sums d xs) : d.sumSq = (xs.map fun x => (x - xs.sum / xs.length) ^ 2).sum := by
  rw [h.squares, ← h.mean]
  ring

/-- The values determine the state, in any order. -/
theorem Sums.eq_of_perm (hd : Sums d xs) (he : Sums e ys) (hp : xs.Perm ys) : d = e := by
  have hcount : d.count = e.count := by rw [hd.count, he.count, hp.length_eq]
  have hmean : d.mean = e.mean := by rw [hd.mean, he.mean, hp.sum_eq, hp.length_eq]
  have hsquares : d.sumSq = e.sumSq := by
    rw [hd.sumSq_eq, he.sumSq_eq, hp.sum_eq, hp.length_eq, (hp.map _).sum_eq]
  cases d
  cases e
  simp_all

variable [CharZero α]

theorem Sums.count_mul_mean (h : Sums d xs) : d.count * d.mean = xs.sum := by
  rw [h.count, h.mean]
  cases xs with
  | nil => simp
  | cons x xs => exact mul_div_cancel₀ _ (Nat.cast_ne_zero.mpr (Nat.succ_ne_zero _))

/-- **One more value.** -/
theorem Sums.step (h : Sums d xs) (x : α) : Sums (d.step (some x)) (xs ++ [x]) := by
  have hcount : (d.step (some x)).count = (xs ++ [x]).length := by
    rw [count_step, h.count, List.length_append, List.length_singleton]
  have hpos : ((d.count + 1 : ℕ) : α) ≠ 0 := Nat.cast_ne_zero.mpr (Nat.succ_ne_zero _)
  have hmean : (d.step (some x)).mean = d.mean + (x - d.mean) / (d.count + 1 : ℕ) := rfl
  have hsum : (d.step (some x)).sumSq = d.sumSq + (x - d.mean) * (x - (d.step (some x)).mean) := rfl
  refine ⟨hcount, ?_, fun c => ?_⟩
  · rw [← hcount, count_step, List.sum_append, List.sum_singleton, ← h.count_mul_mean, hmean]
    push_cast at hpos ⊢
    field_simp
    ring
  · rw [List.map_append, List.sum_append, h.squares c, List.map_singleton, List.sum_singleton, hsum, hmean, count_step]
    push_cast at hpos ⊢
    field_simp
    ring

/-- **A list of values.** The state after it sums up those that are not missing, by induction on the list from its
end. -/
theorem sums_ofList (values : List (Option α)) : Sums (ofList values) values.reduceOption := by
  induction values using List.reverseRecOn with
  | nil => exact sums_start
  | append_singleton values value ih =>
    have hlast : ofList (values ++ [value]) = (ofList values).step value := by
      rw [ofList, List.foldl_append]
      rfl
    rw [hlast, List.reduceOption_append]
    cases value with
    | none => simpa using ih
    | some x => exact ih.step x

end Field

/-- **The two-pass statistic.** Read in exact arithmetic, the state after a list of values counts those that are not
missing, holds their mean and the sum of their squared differences from it, and is the same for the values in another
order with other missing ones among them. There is a standard deviation for three values or more, with `n - 2` below
the line. -/
theorem ofList_exact (values : List (Option ℚ)) :
    let d := ofList values
    let xs := values.reduceOption
    d.count = xs.length ∧ d.count * d.mean = xs.sum ∧
      d.sumSq = (xs.map fun x => (x - xs.sum / xs.length) ^ 2).sum ∧ 0 ≤ d.sumSq ∧
      (∀ others : List (Option ℚ), others.reduceOption.Perm xs → ofList others = d) ∧
      d.rootBy? (fun v : ℚ => √(v : ℝ)) =
        if xs.length < 3 then none else some √((d.sumSq : ℝ) / ((xs.length : ℝ) - 2)) := by
  intro d xs
  have h : Sums d xs := sums_ofList values
  refine ⟨h.count, h.count_mul_mean, h.sumSq_eq, ?_, fun others hp => (sums_ofList others).eq_of_perm h hp, ?_⟩
  · rw [h.sumSq_eq]
    refine List.sum_nonneg fun y hy => ?_
    obtain ⟨x, -, rfl⟩ := List.mem_map.mp hy
    exact sq_nonneg _
  · rw [rootBy?, variance?, h.count]
    split
    · rfl
    · next hlong =>
      rw [Option.map_some]
      push_cast [Nat.cast_sub (show 2 ≤ xs.length by omega)]
      rfl

/-- Eight values with missing ones among them, and the same in another order. -/
theorem ofList_exact_eight :
    let values : List (Option ℚ) := [some 2, none, some 4, some 4, some 4, none, some 5, some 5, some 7, some 9]
    let others : List (Option ℚ) := [some 9, some 7, some 5, none, some 5, some 4, some 4, some 4, some 2]
    others.reduceOption.Perm values.reduceOption ∧ ofList others = ofList values ∧
      (ofList values).sumSq = 32 ∧ (ofList values).rootBy? (fun v : ℚ => √(v : ℝ)) = some √(32 / 6) := by
  intro values others
  have hperm : others.reduceOption.Perm values.reduceOption := by decide +kernel
  obtain ⟨-, -, -, -, hsame, hroot⟩ := ofList_exact values
  have hsum : (ofList values).sumSq = 32 := by decide +kernel
  have hlength : values.reduceOption.length = 8 := by decide +kernel
  refine ⟨hperm, hsame others hperm, hsum, hroot.trans ?_⟩
  rw [hsum, hlength]
  norm_num

end SqlDialect.Deviation
