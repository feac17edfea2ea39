import Federation.Params

/-!
# Averages of updates

The mean of selected updates, and the mean with weights. All updates that enter have one layout.
-/

set_option autoImplicit false

namespace Federation.Average

variable {α : Type}

/-- Every update has the layout of the model, and there is one at least. -/
def check (model : Params α) (updates : List (Params α)) : Except Fault Unit :=
  if updates.isEmpty then .error .emptyUpdates
  else
    match updates.findIdx? fun u => decide (u.layout ≠ model.layout) with
    | some client => .error (.shapeMismatch client)
    | none => .ok ()

def fetch (updates : List (Params α)) (i : Nat) : Except Fault (Params α) :=
  match updates[i]? with
  | some u => .ok u
  | none => .error (.noSuchUpdate i)

variable [Scalar α]

def accumulate (updates : List (Params α)) (start : Params α) (indices : List Nat) :
    Except Fault (Params α) :=
  indices.foldlM (fun sum i => do sum.addScaled Scalar.one (← fetch updates i)) start

def selected (updates : List (Params α)) : List Nat → Except Fault (Params α)
  | [] => .error .emptySelection
  | first :: rest => do
    let pattern ← fetch updates first
    let sum ← accumulate updates pattern.zeros (first :: rest)
    return sum.scale (Scalar.one / Scalar.ofNat (first :: rest).length)

def weighted (first : Params α) (updates : List (Params α)) (weights : List α) :
    Except Fault (Params α) :=
  if weights.length ≠ updates.length then
    .error (.shape (.weightCount weights.length updates.length))
  else
    let total := Scalar.sum weights
    if Scalar.eq total Scalar.zero then .error .emptySelection
    else
      (updates.zip weights).foldlM (fun sum e => sum.addScaled (e.2 / total) e.1) first.zeros

def ofUpdates (updates : List (Params α)) (weights : Option (List α)) :
    Except Fault (Params α) :=
  match updates with
  | [] => .error .emptyUpdates
  | first :: _ => do
    check first updates
    match weights with
    | some ws => weighted first updates ws
    | none => selected updates (List.range updates.length)

end Federation.Average
