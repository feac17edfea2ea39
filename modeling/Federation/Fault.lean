import Federation.Decimal.Text
import Federation.Tensor

/-!
# Faults

Everything that can stop a round, a reading or a construction, by its cause. The wording of each
fault is given here and nowhere else.
-/

set_option autoImplicit false

namespace Federation

def bracketed (texts : List String) : String := "[" ++ ", ".intercalate texts ++ "]"

def countsText (ns : List Nat) : String := bracketed (ns.map Decimal.natText)

def shapesText (shapes : List Shape) : String := bracketed (shapes.map countsText)

def sizeText (size : Nat × Nat) : String :=
  "(" ++ Decimal.natText size.1 ++ ", " ++ Decimal.natText size.2 ++ ")"

inductive StatisticsFault where
  | nonFinite (score : Double)
  | noScores
  | zeroDeviation (median : Double)
  | constantOutputs
  deriving DecidableEq

inductive ConfigFault where
  | rate (x : Single)
  | beta (x : Single)
  | threshold (x : Double)
  | assumed (count : Nat)
  | probeMissing
  deriving DecidableEq

inductive ProbeFault where
  | tensorCount (count : Nat)
  | sizes (weights : Nat × Nat) (bias : Nat) (givenWeights : Nat × Nat) (givenBias : Nat)
  | inputWidth (given expected : Nat)
  deriving DecidableEq

inductive ShapeFault where
  | layouts (first second : List Shape)
  | rank
  | outputs (first second : Nat × Nat)
  | momentum
  | weightCount (weights updates : Nat)
  deriving DecidableEq

inductive Fault where
  | emptyUpdates
  | shapeMismatch (client : Nat)
  | emptySelection
  | insufficientClients (needed actual : Nat)
  | statistics (cause : StatisticsFault)
  | configuration (cause : ConfigFault)
  | probe (cause : ProbeFault)
  | shape (cause : ShapeFault)
  | malformedDocument
  | unreadableFile
  | noSuchUpdate (index : Nat)
  | contradictoryOrder
  deriving DecidableEq

open Decimal (natText floatText fixedText)

def StatisticsFault.explanation : StatisticsFault → String
  | nonFinite score => "non-finite score " ++ floatText score
  | noScores => "no scores to standardize"
  | zeroDeviation median =>
    "MI scores have zero median absolute deviation (median " ++ fixedText 6 median ++ ")"
  | constantOutputs => "no probe sample with non-constant outputs"

def maxAssumed : Nat := 1 <<< 20

def ConfigFault.explanation : ConfigFault → String
  | rate x => "server_lr must be finite, got " ++ floatText x
  | beta x => "beta must be in [0, 1), got " ++ floatText x
  | threshold x => "sigma_threshold must be positive and finite, got " ++ floatText x
  | assumed count =>
    "assumed_byzantine must be at most " ++ natText maxAssumed ++ ", got " ++ natText count
  | probeMissing => "mi aggregation requires a probe model and probe data"

def ProbeFault.explanation : ProbeFault → String
  | tensorCount count =>
    "linear probe expects 2 tensors (weights, bias), got " ++ natText count
  | sizes weights bias givenWeights givenBias =>
    "expected weights " ++ sizeText weights ++ " and bias (" ++ natText bias ++ ",), got "
      ++ sizeText givenWeights ++ " and (" ++ natText givenBias ++ ",)"
  | inputWidth given expected =>
    "probe inputs have " ++ natText given ++ " features, model expects " ++ natText expected

def ShapeFault.explanation : ShapeFault → String
  | layouts first second =>
    "layout " ++ shapesText first ++ " does not match " ++ shapesText second
  | rank => "ShapeError/IncompatibleShape: incompatible shapes"
  | outputs first second =>
    "probe outputs " ++ sizeText first ++ " and " ++ sizeText second ++ " differ"
  | momentum => "momentum layout does not match the global model"
  | weightCount weights updates =>
    natText weights ++ " weights for " ++ natText updates ++ " updates"

namespace Fault

def statisticsHeading : String := "Degenerate statistics: "
def configurationHeading : String := "Invalid configuration: "
def probeHeading : String := "Probe model error: "
def shapeHeading : String := "Array shape error: "

def message : Fault → String
  | emptyUpdates => "Empty updates provided"
  | shapeMismatch client =>
    "Shape mismatch: update from client " ++ natText client ++ " does not match the global model"
  | emptySelection => "Empty selection: every client update was rejected"
  | insufficientClients needed actual =>
    "Insufficient clients: need " ++ natText needed ++ ", got " ++ natText actual
  | statistics cause => statisticsHeading ++ cause.explanation
  | configuration cause => configurationHeading ++ cause.explanation
  | probe cause => probeHeading ++ cause.explanation
  | shape cause => shapeHeading ++ cause.explanation
  | malformedDocument => "Serialization error: malformed document"
  | unreadableFile => "I/O error: unreadable file"
  | noSuchUpdate index => "No update from client " ++ natText index
  | contradictoryOrder =>
    "user-provided comparison function does not correctly implement a total order"

/-- A fault that ends the computation where it occurs, without a result for the caller. -/
def isPanic : Fault → Bool
  | noSuchUpdate _ | contradictoryOrder => true
  | _ => false

end Fault

end Federation
