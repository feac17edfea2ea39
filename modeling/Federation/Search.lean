/-!
# Binary search

The search halves what is left of an ascending list until one place is left, and only then asks
whether the element is there.
-/

set_option autoImplicit false

namespace Federation

/-- The place of the last element that is not above the sought one, among so many from a base on. -/
def searchPlace (xs : List Nat) (sought base size : Nat) : Nat :=
  if 1 < size then
    if xs[base + size / 2]?.any fun x => decide (sought < x) then
      searchPlace xs sought base (size - size / 2)
    else searchPlace xs sought (base + size / 2) (size - size / 2)
  else base
termination_by size

def isFound (xs : List Nat) (sought : Nat) : Bool :=
  xs[searchPlace xs sought 0 xs.length]? == some sought

end Federation
