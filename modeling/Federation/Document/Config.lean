import Federation.Config
import Federation.Document.Basic

/-!
# Configurations as documents

The rule is named by a word or, with its settings, by the only member of an object. Settings that
are left out take their defaults. A configuration is checked as soon as it is read.
-/

set_option autoImplicit false

namespace Federation

open Json

namespace Choice

def toValue : Choice → Value
  | mean => .ofString "fed_avg"
  | information threshold strict =>
    .record [("mi", .record [("sigma_threshold", .ofDouble threshold),
      ("strict_statistics", .bool strict)])]
  | central assumed =>
    .record [("bicotti", .record [("assumed_byzantine",
      match assumed with
      | some f => .ofNat f
      | none => .null)])]

def informationOfValue? (settings : Value) : Option Choice := do
  match ← settings.fields? ["sigma_threshold", "strict_statistics"] with
  | [threshold, strict] =>
    return .information
      (← Value.optional? Value.toDouble? Information.defaultThreshold threshold)
      (← Value.optional? Value.toBool? false strict)
  | _ => none

def centralOfValue? (settings : Value) : Option Choice := do
  match ← settings.fields? ["assumed_byzantine"] with
  | [assumed] =>
    return .central (← Value.optional? (Value.toOption? Value.toNat?) none assumed)
  | _ => none

/-- The plain mean has no settings and takes null in their place. -/
def ofMember? (name : String) (settings : Value) : Option Choice :=
  if name = "fed_avg" then
    match settings with
    | .null => some .mean
    | _ => none
  else if name = "mi" then informationOfValue? settings
  else if name = "bicotti" then centralOfValue? settings
  else none

def ofValue? : Value → Option Choice
  | .string (some name) => if name = "fed_avg" then some .mean else none
  | .object [(some name, settings)] => ofMember? name settings
  | _ => none

end Choice

namespace Config

def toValue (c : Config) : Value :=
  .record
    [("method", c.choice.toValue), ("server_lr", .ofSingle c.rate), ("beta", .ofSingle c.beta)]

def ofValue? (v : Value) : Option Config := do
  match ← v.fields? ["method", "server_lr", "beta"] with
  | [choice, rate, beta] =>
    return {
      choice := ← Value.required? Choice.ofValue? choice
      rate := ← Value.optional? Value.toSingle? defaultRate rate
      beta := ← Value.optional? Value.toSingle? defaultBeta beta }
  | _ => none

def toText (c : Config) : String := c.toValue.render .pretty

def ofText (text : String) : Except Fault Config := do
  let c ← Document.read ofValue? text
  c.check
  return c

def ofFile (bytes : Option ByteArray) : Except Fault Config := do
  ofText (← Document.textOfFile bytes)

end Config

end Federation
