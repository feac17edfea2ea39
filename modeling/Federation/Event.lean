import Federation.Fault

/-!
# Events

What a round reports while it runs, in order. Every event has a level, a fixed message and named
fields.
-/

set_option autoImplicit false

namespace Federation

inductive Method where
  | mean
  | central
  | information
  deriving DecidableEq

def Method.name : Method → String
  | mean => "fedavg"
  | central => "bicotti"
  | information => "mi"

inductive Event where
  | correlationSaturated (rho remainder : Double)
  | boundNotMet (clients assumed : Nat)
  | centralSelection (clients selected : Nat) (rejected : List Nat)
  | meanAggregated (clients : Nat)
  | zeroDispersion (median : Double)
  | twoSigmaEdit (clients selected : Nat) (median spread : Double)
  | updatesRejected (rejected : List Nat)
  | roundFailed (round : Nat) (method : Method) (fault : Fault)
  | roundComplete (round : Nat) (method : Method) (clients selected rejected : Nat)
  deriving DecidableEq

namespace Event

inductive Level where
  | debug
  | info
  | warn
  deriving DecidableEq

inductive Field where
  | count (n : Nat)
  | real (x : Double)
  | text (s : String)

def level : Event → Level
  | centralSelection .. | meanAggregated .. | twoSigmaEdit .. => .debug
  | roundComplete .. => .info
  | correlationSaturated .. | boundNotMet .. | zeroDispersion .. | updatesRejected ..
  | roundFailed .. => .warn

def message : Event → String
  | correlationSaturated .. => "correlation saturated, flooring log argument"
  | boundNotMet .. => "Bicotti bound not met (n < 2f + 3), proceeding best-effort"
  | centralSelection .. => "bicotti selection"
  | meanAggregated .. => "fedavg round aggregated"
  | zeroDispersion .. => "MI scores have zero dispersion, keeping clients at the median"
  | twoSigmaEdit .. => "mi two-sigma edit"
  | updatesRejected .. => "MI filter rejected client updates"
  | roundFailed .. => "aggregation round failed"
  | roundComplete .. => "aggregation round complete"

def fields : Event → List (String × Field)
  | correlationSaturated rho remainder => [("rho", .real rho), ("arg", .real remainder)]
  | boundNotMet clients assumed => [("n", .count clients), ("f", .count assumed)]
  | centralSelection clients selected rejected =>
    [("clients", .count clients), ("selected", .count selected),
      ("rejected", .text (countsText rejected))]
  | meanAggregated clients => [("clients", .count clients)]
  | zeroDispersion median => [("median", .real median)]
  | twoSigmaEdit clients selected median spread =>
    [("clients", .count clients), ("selected", .count selected), ("median", .real median),
      ("madn", .real spread)]
  | updatesRejected rejected => [("rejected", .text (countsText rejected))]
  | roundFailed round method fault =>
    [("round", .count round), ("method", .text method.name), ("error", .text fault.message)]
  | roundComplete round method clients selected rejected =>
    [("round", .count round), ("method", .text method.name), ("clients", .count clients),
      ("selected", .count selected), ("rejected", .count rejected)]

end Event

end Federation
