import Federation.Params

/-!
# Server state

The global model and the momentum are all that one round hands to the next.
-/

set_option autoImplicit false

namespace Federation

structure State (α : Type) where
  model : Params α
  momentum : Params α
  deriving DecidableEq

namespace State

variable {α : Type}

def fresh [Scalar α] (model : Params α) : State α := ⟨model, model.zeros⟩

def resume (model momentum : Params α) : Except Fault (State α) :=
  if model.layout = momentum.layout then .ok ⟨model, momentum⟩ else .error (.shape .momentum)

/-- One step with Nesterov momentum: `m' = beta * m - rate * direction` and
`x' = x - beta * m + (1 + beta) * m'`. -/
def nesterov [Scalar α] (s : State α) (direction : Params α) (beta rate : α) :
    Except Fault (State α) := do
  let momentum ← (s.momentum.scale beta).addScaled (-rate) direction
  let behind ← s.model.addScaled (-beta) s.momentum
  let model ← behind.addScaled (Scalar.one + beta) momentum
  return ⟨model, momentum⟩

end State

end Federation
