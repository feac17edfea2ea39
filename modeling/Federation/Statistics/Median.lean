import Federation.Scalar
import Federation.Sort

/-!
# Medians

The median of a list and the median absolute deviation from it, the location and the spread that a
minority of extreme values cannot move far.
-/

set_option autoImplicit false

namespace Federation.Statistics

variable {α : Type} [Scalar α]

def halfway? (low high : Option α) : Option α := do
  return ((← low) + (← high)) / Scalar.ofNat 2

/-- The middle element, or half the sum of the two middle elements; an empty list has none. -/
def middle? (sorted : List α) : Option α :=
  if sorted.length % 2 = 0 then
    halfway? sorted[sorted.length / 2 - 1]? sorted[sorted.length / 2]?
  else sorted[sorted.length / 2]?

def median (values : List α) : Except Fault (Option α) := do
  let sorted ← Sorting.standard.sorted Scalar.lt values
  return middle? sorted

def medianDeviation (values : List α) : Except Fault (Option (α × α)) := do
  match ← median values with
  | none => return none
  | some center =>
    let deviation ← median (values.map fun v => Scalar.abs (v - center))
    return deviation.map fun d => (center, d)

end Federation.Statistics
