import Federation.Average
import Federation.Logged
import Federation.Pairwise
import Federation.Probe
import Federation.Rule.Outcome
import Federation.Statistics.Correlation
import Federation.Statistics.TwoSigma

/-!
# The informative majority

Each update is turned back into the model that the client arrived at, and every model is run on one
batch of unlabelled inputs. A client whose outputs share unusually little or unusually much
information with the outputs of the others is left out of the average, and the average moves the
model with momentum.
-/

set_option autoImplicit false

namespace Federation

structure Information where
  probe : Probe
  batch : Matrix Single
  rate : Single
  beta : Single
  threshold : Double
  strict : Bool

namespace Information

open Statistics

def defaultThreshold : Double := Scalar.ofNat 2

def ofCorrelation (rho : Double) : Logged Double := do
  if isSaturated rho then
    Logged.emit (.correlationSaturated (clampedCorrelation rho) (unexplained rho))
  return mutualInformation rho

def ofOutputs (a b : Matrix Single) : Logged Double := do
  ofCorrelation (← correlation a b)

def table (outputs : List (Matrix Single)) : Logged (Matrix Double) :=
  Pairwise.table .zero ofOutputs outputs

def clientScores (table : Matrix Double) : List Double :=
  table.rows.map fun row => Scalar.sum row / Scalar.ofNat table.width

def clientOutputs (r : Information) (model : Params Single) (updates : List (Params Single)) :
    Probe × Except Fault (List (Matrix Single)) :=
  match updates.mapM model.sub with
  | .error fault => (r.probe, .error fault)
  | .ok models => Probe.outputsOf r.batch r.probe models

def clientTable (r : Information) (model : Params Single) (updates : List (Params Single)) :
    Probe × Logged (Matrix Double) :=
  let (probe, outputs) := r.clientOutputs model updates
  (probe, do table (← outputs))

def conclude (r : Information) (state : State Single) (updates : List (Params Single))
    (scores : List Double) : Logged Outcome := do
  let edit ← TwoSigma.ofValues scores
  if edit.isDegenerate then
    if r.strict then
      Logged.fail (.statistics (.zeroDeviation edit.median))
    Logged.emit (.zeroDispersion edit.median)
  let (selected, rejected) := edit.partition r.threshold
  Logged.emit (.twoSigmaEdit updates.length selected.length edit.median edit.spread)
  if !rejected.isEmpty then
    Logged.emit (.updatesRejected rejected)
  let mean ← Average.selected updates selected
  let next ← state.nesterov mean r.beta r.rate
  return {
    state := next
    selected := selected
    rejected := rejected
    scores := some scores }

/-- The rule comes back with the probe as the round left it. -/
def round (r : Information) (state : State Single) (updates : List (Params Single)) :
    Information × Logged Outcome :=
  match Average.check state.model updates with
  | .error fault => (r, Logged.fail fault)
  | .ok () =>
    let (probe, table) := r.clientTable state.model updates
    ({ r with probe := probe }, do r.conclude state updates (clientScores (← table)))

end Information

end Federation
