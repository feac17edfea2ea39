import Federation.Rule

/-!
# Configurations

A document chooses a rule and its settings. They are checked before a rule is built from them.
-/

set_option autoImplicit false

namespace Federation

inductive Choice where
  | mean
  | information (threshold : Double) (strict : Bool)
  | central (assumed : Option Nat)
  deriving DecidableEq

namespace Choice

def method : Choice → Method
  | mean => .mean
  | information .. => .information
  | central _ => .central

def agrees : Choice → Choice → Bool
  | mean, mean => true
  | information t s, information t' s' => t.eq t' && s == s'
  | central f, central f' => f == f'
  | _, _ => false

end Choice

structure ProbeSetup where
  probe : Probe
  batch : Matrix Single

structure Config where
  choice : Choice
  rate : Single
  beta : Single
  deriving DecidableEq

namespace Config

def defaultRate : Single := Scalar.one
def defaultBeta : Single := Scalar.zero

def standard : Config := ⟨.mean, defaultRate, defaultBeta⟩

def agrees (c d : Config) : Bool :=
  c.choice.agrees d.choice && c.rate.eq d.rate && c.beta.eq d.beta

def checkChoice : Choice → Except ConfigFault Unit
  | .mean => .ok ()
  | .information threshold _ =>
    if Scalar.lt Scalar.zero threshold && threshold.isFinite then .ok ()
    else .error (.threshold threshold)
  | .central assumed =>
    match assumed with
    | some f => if f ≤ maxAssumed then .ok () else .error (.assumed f)
    | none => .ok ()

/-- All values are in range. The first one that is not is reported. -/
def check (c : Config) : Except Fault Unit :=
  if !c.rate.isFinite then .error (.configuration (.rate c.rate))
  else if !(Binary.le Scalar.zero c.beta && Binary.lt c.beta Scalar.one) then
    .error (.configuration (.beta c.beta))
  else (checkChoice c.choice).mapError .configuration

/-- Builds the rule. Only the informative majority looks at the probe, and it needs one. -/
def build (c : Config) (setup : Option ProbeSetup) : Except Fault Rule := do
  c.check
  match c.choice with
  | .mean => return .mean ⟨c.rate, c.beta⟩
  | .central assumed => return .central ⟨c.rate, c.beta, assumed⟩
  | .information threshold strict =>
    match setup with
    | none => .error (.configuration .probeMissing)
    | some s => return .information ⟨s.probe, s.batch, c.rate, c.beta, threshold, strict⟩

end Config

end Federation
