import Federation.Json.Value

/-!
# Reading typed data

Each reader takes a value to the data it denotes or refuses it. A record may be written as an
object, whose unknown members are passed over, or as the array of its fields in order.
-/

set_option autoImplicit false

namespace Federation.Json.Value

def toNat? : Value → Option Nat
  | .number n => n.toNat?
  | _ => none

def toBool? : Value → Option Bool
  | .bool b => some b
  | _ => none

def toString? : Value → Option String
  | .string t => t
  | _ => none

def toSingle? : Value → Option Single
  | .number n => n.toSingle?
  | _ => none

def toDouble? : Value → Option Double
  | .number n => n.toDouble?
  | _ => none

def toList? {α : Type} (read : Value → Option α) : Value → Option (List α)
  | .array items => items.mapM read
  | _ => none

def toOption? {α : Type} (read : Value → Option α) : Value → Option (Option α)
  | .null => some none
  | v => (read v).map some

def named (name : String) (members : List (Text × Value)) : List Value :=
  (members.filter fun m => m.1 == some name).map Prod.snd

def once? (members : List (Text × Value)) (name : String) : Option (Option Value) :=
  match named name members with
  | [] => some none
  | [v] => some (some v)
  | _ => none

def fields? (names : List String) : Value → Option (List (Option Value))
  | .object members =>
    if members.all fun m => m.1.isSome then names.mapM (once? members) else none
  | .array items =>
    if items.length ≤ names.length then
      some (items.map some ++ List.replicate (names.length - items.length) none)
    else none
  | _ => none

def required? {α : Type} (read : Value → Option α) (field : Option Value) : Option α :=
  field.bind read

def optional? {α : Type} (read : Value → Option α) (default : α) : Option Value → Option α
  | none => some default
  | some v => read v

end Federation.Json.Value
