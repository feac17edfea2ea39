import Federation.Fault
import Federation.Statistics.Median

/-!
# The two-sigma edit

Values are measured by their distance from the median in units of a spread that is estimated from
the median absolute deviation. Values too far out on either side are edited away.
-/

set_option autoImplicit false

namespace Federation.Statistics

/-- A standardized deviation. Where the spread is zero, a value off the median has no finite one
and only its side is known. -/
inductive Score (α : Type) where
  | measured (z : α)
  | unbounded (below : Bool)
  deriving DecidableEq

namespace Score

def toDouble : Score Double → Double
  | measured z => z
  | unbounded below => .infinity below

def isWithin {α : Type} [Scalar α] (threshold : α) : Score α → Bool
  | measured z => Scalar.lt (Scalar.abs z) threshold
  | unbounded _ => false

end Score

structure TwoSigma (α : Type) where
  median : α
  spread : α
  scores : List (Score α)
  deriving DecidableEq

namespace TwoSigma

section Exact

variable {α : Type} [Scalar α]

def normalDeviation : α := Scalar.ofRatio 6745 10000

def score (median spread v : α) : Score α :=
  let deviation := v - median
  if Scalar.lt Scalar.zero spread then .measured (deviation / spread)
  else if Scalar.eq deviation Scalar.zero then .measured Scalar.zero
  else .unbounded (Scalar.lt deviation Scalar.zero)

def edit (values : List α) (median deviation : α) : TwoSigma α :=
  ⟨median, deviation / normalDeviation, values.map (score median (deviation / normalDeviation))⟩

def standardize (values : List α) : Except Fault (Option (TwoSigma α)) := do
  let measures ← medianDeviation values
  return measures.map fun (median, deviation) => edit values median deviation

def isDegenerate (t : TwoSigma α) : Bool := Scalar.eq t.spread Scalar.zero

def keeps (t : TwoSigma α) (threshold : α) (i : Nat) : Bool :=
  t.scores[i]?.any (Score.isWithin threshold)

def partition (t : TwoSigma α) (threshold : α) : List Nat × List Nat :=
  (List.range t.scores.length).partition (t.keeps threshold)

end Exact

def ofValues (values : List Double) : Except Fault (TwoSigma Double) :=
  match values.find? fun v => !v.isFinite with
  | some v => .error (.statistics (.nonFinite v))
  | none => do
    match ← standardize values with
    | some t => return t
    | none => .error (.statistics .noScores)

end TwoSigma

end Federation.Statistics
