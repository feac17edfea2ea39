import Federation.Document.Params
import Federation.State

/-!
# Checkpoints

The state of a server as a document. Reading one back checks once more that model and momentum
have one layout.
-/

set_option autoImplicit false

namespace Federation.State

open Json

def toValue (s : State Single) : Value :=
  .record [("global", s.model.toValue), ("momentum", s.momentum.toValue)]

def parts? (v : Value) : Option (Params Single × Params Single) := do
  match ← v.fields? ["global", "momentum"] with
  | [model, momentum] =>
    return (← Value.required? Params.ofValue? model, ← Value.required? Params.ofValue? momentum)
  | _ => none

def toText (s : State Single) : String := s.toValue.render .compact

def ofText (text : String) : Except Fault (State Single) := do
  let (model, momentum) ← Document.read parts? text
  resume model momentum

def ofFile (bytes : Option ByteArray) : Except Fault (State Single) := do
  ofText (← Document.textOfFile bytes)

end Federation.State
