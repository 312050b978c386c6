/-!
# The standard deviation

The networked database divides the sum of squared deviations by `n - 2`, and the embedded one has to give the same
numbers. `Deviation` keeps the count, the mean and the sum of squared deviations of the values seen so far, in any
arithmetic; missing values are ignored.

* `step_none`: a missing value changes nothing.
* `count_step`: a value adds one to the count.
-/

namespace SqlDialect

/-- The running state of a standard deviation. -/
structure Deviation (α : Type) where
  count : Nat
  mean : α
  sumSq : α
  deriving DecidableEq, Repr

namespace Deviation

variable {α : Type} [Add α] [Sub α] [Mul α] [Div α] [NatCast α]

/-- The state before the first value. -/
def start : Deviation α := ⟨0, (0 : Nat), (0 : Nat)⟩

/-- The state after one more value. The mean moves by its share of the difference, and the squared deviations grow by
the product of the differences from the old and from the new mean. -/
def step (d : Deviation α) : Option α → Deviation α
  | none => d
  | some x =>
    let count := d.count + 1
    let delta := x - d.mean
    let mean := d.mean + delta / (count : Nat)
    ⟨count, mean, d.sumSq + delta * (x - mean)⟩

/-- The squared standard deviation, for three values or more. -/
def variance? (d : Deviation α) : Option α :=
  if d.count < 3 then none else some (d.sumSq / ((d.count - 2 : Nat) : α))

/-- The standard deviation by a square root, for three values or more. -/
def rootBy? {β : Type} (root : α → β) (d : Deviation α) : Option β := d.variance?.map root

/-- The state after a list of values. -/
def ofList (values : List (Option α)) : Deviation α := values.foldl step start

/-- A missing value changes nothing. -/
@[simp] theorem step_none (d : Deviation α) : d.step none = d := rfl

/-- A value adds one to the count. -/
@[simp] theorem count_step (d : Deviation α) (x : α) : (d.step (some x)).count = d.count + 1 := rfl

end Deviation

/-- The floating-point number of a natural. -/
instance natCastFloat : NatCast Float := ⟨Float.ofNat⟩

/-- The standard deviation of the values seen so far. -/
def Deviation.root? (d : Deviation Float) : Option Float := d.rootBy? Float.sqrt

end SqlDialect
