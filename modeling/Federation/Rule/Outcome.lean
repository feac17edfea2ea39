import Federation.State

/-!
# Outcomes

What a completed round leaves: the next state, and which clients entered the average.
-/

set_option autoImplicit false

namespace Federation

structure Outcome where
  state : State Single
  selected : List Nat
  rejected : List Nat
  scores : Option (List Double)
  deriving DecidableEq

end Federation
