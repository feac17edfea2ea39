import Federation.Fault
import Federation.Sort.Long

/-!
# Sorts

A sort is asked to put a list in the order of a comparison. Where the comparison contradicts itself
it may give up.
-/

set_option autoImplicit false

namespace Federation

structure Sorting where
  run {β : Type} : (β → β → Bool) → List β → Option (List β)

namespace Sorting

def standard : Sorting := ⟨standardSort⟩

def sorted {β : Type} (sort : Sorting) (below : β → β → Bool) (xs : List β) :
    Except Fault (List β) :=
  match sort.run below xs with
  | some ys => .ok ys
  | none => .error .contradictoryOrder

end Sorting

end Federation
