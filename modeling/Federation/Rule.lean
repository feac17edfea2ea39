import Federation.Rule.Central
import Federation.Rule.Information
import Federation.Rule.Mean

/-!
# Aggregation rules

One of three ways to turn the updates of a round into the next state.
-/

set_option autoImplicit false

namespace Federation

inductive Rule where
  | mean (r : Mean)
  | central (r : Central)
  | information (r : Information)

namespace Rule

def method : Rule → Method
  | mean _ => .mean
  | central _ => .central
  | information _ => .information

/-- Runs one round. The rule comes back as the round left it. -/
def round (r : Rule) (state : State Single) (updates : List (Params Single)) :
    Rule × Logged Outcome :=
  match r with
  | mean m => (mean m, m.round state updates)
  | central c => (central c, c.round state updates)
  | information i =>
    let (left, outcome) := i.round state updates
    (information left, outcome)

end Rule

end Federation
