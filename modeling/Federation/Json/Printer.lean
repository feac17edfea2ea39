import Federation.Json.Quoted
import Federation.Json.Value

/-!
# Writing values

Values are written compactly or with one item a line. The two layouts differ in blanks only.
-/

set_option autoImplicit false

namespace Federation.Json

structure Layout where
  lineBreak : Nat → List Char
  space : List Char

namespace Layout

def compact : Layout := ⟨fun _ => [], []⟩

def pretty : Layout := ⟨fun depth => '\n' :: List.replicate (2 * depth) ' ', [' ']⟩

end Layout

namespace Value

def quoted (t : Text) : List Char := '"' :: Quoted.encode (t.getD "").toList ++ ['"']

mutual

def write (layout : Layout) (depth : Nat) : Value → List Char
  | .null => ['n', 'u', 'l', 'l']
  | .bool true => ['t', 'r', 'u', 'e']
  | .bool false => ['f', 'a', 'l', 's', 'e']
  | .number n => n.toChars
  | .string t => quoted t
  | .array [] => ['[', ']']
  | .array (item :: items) =>
    '[' :: layout.lineBreak (depth + 1) ++ write layout (depth + 1) item
      ++ writeItems layout (depth + 1) items ++ layout.lineBreak depth ++ [']']
  | .object [] => ['{', '}']
  | .object ((name, v) :: members) =>
    '{' :: layout.lineBreak (depth + 1) ++ quoted name ++ ':' :: layout.space
      ++ write layout (depth + 1) v
      ++ writeMembers layout (depth + 1) members ++ layout.lineBreak depth ++ ['}']

def writeItems (layout : Layout) (depth : Nat) : List Value → List Char
  | [] => []
  | item :: items =>
    ',' :: layout.lineBreak depth ++ write layout depth item ++ writeItems layout depth items

def writeMembers (layout : Layout) (depth : Nat) : List (Text × Value) → List Char
  | [] => []
  | (name, v) :: members =>
    ',' :: layout.lineBreak depth ++ quoted name ++ ':' :: layout.space ++ write layout depth v
      ++ writeMembers layout depth members

end

def render (layout : Layout) (v : Value) : String := String.ofList (v.write layout 0)

end Value

end Federation.Json
