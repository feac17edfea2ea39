import Federation.Document.Basic
import Federation.Params

/-!
# Parameters as documents

A list of tensors. Each tensor is a record of a version number, the dimensions and the entries in
row-major order; unlike other records it has no further members, and a repeated member replaces the
one before it.
-/

set_option autoImplicit false

namespace Federation

open Json

namespace Tensor

def version : Nat := 1

def toValue (t : Tensor Single) : Value :=
  .record [("v", .ofNat version), ("dim", .ofNats t.shape),
    ("data", .array (t.entries.map Value.ofSingle))]

def isAddressable (shape : Shape) : Bool :=
  decide (Shape.volume (shape.filter (· ≠ 0)) < Count.bound / 2)

def ofParts? (shape : Shape) (entries : List Single) : Option (Tensor Single) :=
  if h : entries.length = shape.volume then
    if isAddressable shape then some ⟨shape, entries, h⟩ else none
  else none

def readVersion? (v : Value) : Option Unit :=
  if v.toNat? = some version then some () else none

def readShape? : Value → Option Shape := Value.toList? Value.toNat?

def readEntries? : Value → Option (List Single) := Value.toList? Value.toSingle?

/-- Every value written under a name has to be well formed; the last one counts. -/
def latest? {α : Type} (read : Value → Option α) (name : String)
    (members : List (Text × Value)) : Option α := do
  (← (Value.named name members).mapM read).getLast?

def isKnownName (name : Text) : Bool :=
  name == some "v" || name == some "dim" || name == some "data"

def ofValue? : Value → Option (Tensor Single)
  | .object members =>
    if members.all fun m => isKnownName m.1 then do
      latest? readVersion? "v" members
      ofParts? (← latest? readShape? "dim" members) (← latest? readEntries? "data" members)
    else none
  | .array [v, shape, entries] => do
    readVersion? v
    ofParts? (← readShape? shape) (← readEntries? entries)
  | _ => none

end Tensor

namespace Params

def toValue (p : Params Single) : Value := .array (p.tensors.map Tensor.toValue)

def ofValue? (v : Value) : Option (Params Single) := (v.toList? Tensor.ofValue?).map Params.mk

def toText (p : Params Single) : String := p.toValue.render .compact

def ofText (text : String) : Except Fault (Params Single) := Document.read ofValue? text

end Params

end Federation
