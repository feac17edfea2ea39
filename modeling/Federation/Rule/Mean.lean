import Federation.Average
import Federation.Logged
import Federation.Rule.Outcome

/-!
# The plain mean

Every client enters the average, and the model moves against it. A single client can move it
anywhere.
-/

set_option autoImplicit false

namespace Federation

structure Mean where
  rate : Single
  beta : Single
  deriving DecidableEq

def Mean.round (r : Mean) (state : State Single) (updates : List (Params Single)) :
    Logged Outcome := do
  Average.check state.model updates
  let mean ← Average.ofUpdates updates none
  let model ← state.model.addScaled (-r.rate) mean
  Logged.emit (.meanAggregated updates.length)
  return {
    state := ⟨model, state.momentum⟩
    selected := List.range updates.length
    rejected := []
    scores := none }

end Federation
