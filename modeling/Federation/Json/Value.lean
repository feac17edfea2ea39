import Federation.Json.Number

/-!
# Values

The data model of documents. Object members keep the order in which they were written, repeated
names included, because the meaning of a repeated name is up to the record that is read.
-/

set_option autoImplicit false

namespace Federation.Json

/-- The text of a string literal, or nothing if the literal denotes no text. -/
abbrev Text := Option String

inductive Value where
  | null
  | bool (b : Bool)
  | number (n : Number)
  | string (text : Text)
  | array (items : List Value)
  | object (members : List (Text × Value))

namespace Value

def ofNat (n : Nat) : Value := .number (.ofNat n)
def ofString (s : String) : Value := .string (some s)

def ofSingle (x : Single) : Value :=
  match Number.ofBinary? Number.singleWindow x with
  | some n => .number n
  | none => .null

def ofDouble (x : Double) : Value :=
  match Number.ofBinary? Number.doubleWindow x with
  | some n => .number n
  | none => .null

def ofNats (ns : List Nat) : Value := .array (ns.map ofNat)

def record (fields : List (String × Value)) : Value :=
  .object (fields.map fun field => (some field.1, field.2))

end Value

end Federation.Json
