import Federation.Fault
import Federation.Float.Logarithm
import Federation.Matrix

/-!
# Correlation of outputs

Two models are compared by the correlation of their outputs on the same inputs, row by row. Under a
Gaussian model a correlation stands for an amount of mutual information.
-/

set_option autoImplicit false

namespace Federation.Statistics

structure Moments where
  covariance : Double
  firstVariance : Double
  secondVariance : Double

namespace Moments

def zero : Moments := ⟨Scalar.zero, Scalar.zero, Scalar.zero⟩

def add (m : Moments) (dx dy : Double) : Moments where
  covariance := m.covariance + dx * dy
  firstVariance := m.firstVariance + dx * dx
  secondVariance := m.secondVariance + dy * dy

end Moments

def mean (row : List Single) : Double :=
  Scalar.sum (row.map Binary.toDouble) / Scalar.ofNat row.length

def moments (a b : List Single) : Moments :=
  (a.zip b).foldl (fun m e => m.add (e.1.toDouble - mean a) (e.2.toDouble - mean b)) .zero

/-- The correlation of two rows. A row in which nothing varies has none. -/
def rowCorrelation? (a b : List Single) : Option Double :=
  if a.isEmpty then none
  else
    let m := moments a b
    let scale := (m.firstVariance * m.secondVariance).sqrt
    if Scalar.lt Scalar.zero scale && scale.isFinite then some (m.covariance / scale) else none

def rowCorrelations (a b : Matrix Single) : List Double :=
  (a.rows.zip b.rows).filterMap fun e => rowCorrelation? e.1 e.2

def correlation (a b : Matrix Single) : Except Fault Double :=
  if a.size = b.size then
    match rowCorrelations a b with
    | [] => .error (.statistics .constantOutputs)
    | rs => .ok (rs.foldl (· + ·) Scalar.zero / Scalar.ofNat rs.length)
  else .error (.shape (.outputs a.size b.size))

/-- Arguments of the logarithm are raised to this floor. -/
def logFloor : Double := Scalar.ofRatio 1 (Decimal.tens 300)

def clampedCorrelation (rho : Double) : Double := rho.clamp (-Scalar.one) Scalar.one

def unexplained (rho : Double) : Double :=
  Scalar.one - clampedCorrelation rho * clampedCorrelation rho

def isSaturated (rho : Double) : Bool := (unexplained rho).lt logFloor

def half : Double := Scalar.ofRatio 1 2

def mutualInformation (rho : Double) : Double :=
  -half * ((unexplained rho).max logFloor).ln

end Federation.Statistics
