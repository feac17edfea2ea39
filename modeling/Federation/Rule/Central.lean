import Federation.Average
import Federation.Count
import Federation.Distance
import Federation.Logged
import Federation.Pairwise
import Federation.Rule.Outcome
import Federation.Search
import Federation.Sort

/-!
# The central majority

Each client is scored by its distances to its nearest neighbours. Faulty clients that stand far
from the honest ones have large scores, however they stand to each other, as long as there are too
few of them to be each other's neighbours. The clients with the lowest scores enter the average.
-/

set_option autoImplicit false

namespace Federation

/-- The momentum coefficient is kept but not used. Without a fixed number of faulty clients a
third of the round is assumed to be faulty. -/
structure Central where
  rate : Single
  beta : Single
  assumed : Option Nat
  deriving DecidableEq

namespace Central

def distances (updates : List (Params Single)) : Except Fault (Matrix Double) :=
  Pairwise.table .zero Params.distance updates

def defaultFaulty (clients : Nat) : Nat := clients / 3

/-- The clients a score looks at: all others but the faulty ones and one more, if any is left. -/
def neighbourCount? (clients faulty : Nat) : Option Nat :=
  ((Count.add? faulty 2).bind (Count.sub? clients)).filter fun neighbours => decide (1 ≤ neighbours)

/-- The sum of the smallest entries of a row: the distances to the neighbours, and the zero
distance of the client to itself. The entries are counted in a word, so none is summed for the
greatest count of neighbours. -/
def neighbourScore (sort : Sorting) (neighbours : Nat) (row : List Double) :
    Except Fault Double := do
  let sorted ← sort.sorted Binary.lt row
  return Scalar.sum (sorted.take (Count.next neighbours))

def neighbourScores (sort : Sorting) (table : Matrix Double) (neighbours : Nat) :
    Except Fault (List Double) :=
  table.rows.mapM (neighbourScore sort neighbours)

def order (sort : Sorting) (scores : List Double) : Except Fault (List Nat) := do
  let sorted ← sort.sorted (fun a b => a.1.lt b.1) scores.zipIdx
  return sorted.map Prod.snd

def faulty (r : Central) (clients : Nat) : Nat := r.assumed.getD (defaultFaulty clients)

def needed (r : Central) : Nat :=
  match r.assumed with
  | some f => Count.saturate (f + 3)
  | none => 4

def selectBy (sort : Sorting) (r : Central) (updates : List (Params Single)) :
    Logged (List Nat × List Double) :=
  let clients := updates.length
  let faulty := r.faulty clients
  match neighbourCount? clients faulty with
  | none => Logged.fail (.insufficientClients r.needed clients)
  | some neighbours => do
    if clients < Count.saturate (2 * faulty + 3) then
      Logged.emit (.boundNotMet clients faulty)
    let table ← distances updates
    let scores ← neighbourScores sort table neighbours
    let order ← order sort scores
    let selected := insertionSort (fun i j => decide (i < j)) (order.take (clients - faulty))
    return (selected, scores)

def select (r : Central) (updates : List (Params Single)) : Logged (List Nat × List Double) :=
  r.selectBy .standard updates

def roundBy (sort : Sorting) (r : Central) (state : State Single) (updates : List (Params Single)) :
    Logged Outcome := do
  Average.check state.model updates
  let (selected, scores) ← r.selectBy sort updates
  let rejected := (List.range updates.length).filter fun i => !isFound selected i
  Logged.emit (.centralSelection updates.length selected.length rejected)
  let mean ← Average.selected updates selected
  let model ← state.model.addScaled (-r.rate) mean
  return {
    state := ⟨model, state.momentum⟩
    selected := selected
    rejected := rejected
    scores := some scores }

def round (r : Central) (state : State Single) (updates : List (Params Single)) :
    Logged Outcome :=
  r.roundBy .standard state updates

end Central

end Federation
