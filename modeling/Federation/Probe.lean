import Federation.Float.Exponential
import Federation.Params

/-!
# Linear probes

A probe is one dense layer. Candidate parameters are loaded into it, and a batch of unlabelled
inputs is run through it, row by row. A failed load leaves it as it was.
-/

set_option autoImplicit false

namespace Federation

inductive Activation where
  | identity
  | softmax
  deriving DecidableEq

structure Probe where
  activation : Activation
  weights : Matrix Single
  bias : List Single
  length_bias : bias.length = weights.width
  deriving DecidableEq

namespace Softmax

def greatest (row : List Single) : Single := row.foldl Binary.max (.infinity true)

structure Lanes where
  a0 : Single
  a1 : Single
  a2 : Single
  a3 : Single
  a4 : Single
  a5 : Single
  a6 : Single
  a7 : Single

namespace Lanes

def zero : Lanes := ⟨.zero, .zero, .zero, .zero, .zero, .zero, .zero, .zero⟩

def total (p : Lanes) : Single :=
  .zero + (p.a0 + p.a4) + (p.a1 + p.a5) + (p.a2 + p.a6) + (p.a3 + p.a7)

end Lanes

/-- Adds full blocks of eight lane by lane, and the rest one by one. -/
def laneSum (p : Lanes) : List Single → Single
  | x0 :: x1 :: x2 :: x3 :: x4 :: x5 :: x6 :: x7 :: rest =>
    laneSum ⟨p.a0 + x0, p.a1 + x1, p.a2 + x2, p.a3 + x3, p.a4 + x4, p.a5 + x5, p.a6 + x6,
      p.a7 + x7⟩ rest
  | rest => rest.foldl (· + ·) p.total

/-- The exponentials of a row after its greatest entry is taken off, so that none overflows. -/
def exponentials (row : List Single) : List Single := row.map fun x => (x - greatest row).exp

def weigh (row : List Single) : List Single :=
  let es := exponentials row
  es.map (· / laneSum .zero es)

theorem length_weigh (row : List Single) : (weigh row).length = row.length := by
  simp [weigh, exponentials]

end Softmax

namespace Probe

def zeros (inputs outputs : Nat) (activation : Activation) : Probe where
  activation := activation
  weights := .constant inputs outputs .zero
  bias := List.replicate outputs .zero
  length_bias := by simp [Matrix.constant]

def inputs (p : Probe) : Nat := p.weights.height
def outputs (p : Probe) : Nat := p.weights.width

def params (p : Probe) : Params Single := ⟨[.ofMatrix p.weights, .vector p.bias]⟩

def load (p : Probe) (candidate : Params Single) : Except Fault Probe :=
  match candidate.tensors with
  | [w, b] =>
    match w.matrix?, b.vector? with
    | some weights, some bias =>
      if h : weights.size = p.weights.size ∧ bias.length = p.bias.length then
        .ok { p with
          weights := weights
          bias := bias
          length_bias := h.2.trans (p.length_bias.trans (congrArg Prod.snd h.1).symm) }
      else .error (.probe (.sizes p.weights.size p.bias.length weights.size bias.length))
    | _, _ => .error (.shape .rank)
  | ts => .error (.probe (.tensorCount ts.length))

def products (width : Nat) (inputs : List Single) (weights : List (List Single)) : List Single :=
  (inputs.zip weights).foldl (fun sums e => List.zipWith (fun s w => s + e.1 * w) sums e.2)
    (List.replicate width .zero)

def activate : Activation → List Single → List Single
  | .identity, row => row
  | .softmax, row => Softmax.weigh row

def forwardRow (p : Probe) (row : List Single) : List Single :=
  activate p.activation
    (List.zipWith (· + ·) (products p.weights.width row p.weights.rows) p.bias)

theorem length_foldl_products {width : Nat} (es : List (Single × List Single))
    (sums : List Single) (hs : sums.length = width) (h : ∀ e ∈ es, e.2.length = width) :
    (es.foldl (fun sums e => List.zipWith (fun s w => s + e.1 * w) sums e.2) sums).length
      = width := by
  induction es generalizing sums with
  | nil => exact hs
  | cons e es ih =>
    refine ih _ ?_ fun e' he => h e' (by simp [he])
    rw [List.length_zipWith, hs, h e (by simp), Nat.min_self]

theorem length_forwardRow (p : Probe) (row : List Single) :
    (p.forwardRow row).length = p.weights.width := by
  have hp : (products p.weights.width row p.weights.rows).length = p.weights.width := by
    refine length_foldl_products _ _ (by simp) fun e he => ?_
    exact p.weights.length_row e.2 (List.of_mem_zip he).2
  have hz : (List.zipWith (· + ·) (products p.weights.width row p.weights.rows) p.bias).length
      = p.weights.width := by
    rw [List.length_zipWith, hp, p.length_bias, Nat.min_self]
  unfold forwardRow
  cases p.activation with
  | identity => exact hz
  | softmax => rw [activate, Softmax.length_weigh, hz]

def forward (p : Probe) (batch : Matrix Single) : Except Fault (Matrix Single) :=
  if batch.width = p.inputs then
    .ok (batch.mapRows p.outputs p.forwardRow fun row _ => p.length_forwardRow row)
  else .error (.probe (.inputWidth batch.width p.inputs))

/-- Loads the models one after the other and collects their outputs. The probe is left with the
last model that could be loaded. -/
def outputsOf (batch : Matrix Single) :
    Probe → List (Params Single) → Probe × Except Fault (List (Matrix Single))
  | p, [] => (p, .ok [])
  | p, model :: models =>
    match p.load model with
    | .error e => (p, .error e)
    | .ok loaded =>
      match loaded.forward batch with
      | .error e => (loaded, .error e)
      | .ok output =>
        let (last, outputs) := outputsOf batch loaded models
        (last, outputs.map (output :: ·))

end Probe

end Federation
