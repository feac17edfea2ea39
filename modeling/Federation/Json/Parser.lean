import Federation.Json.Token

/-!
# Reading values

A machine with a stack of unfinished arrays and objects takes one token at a time. A document is
one value with nothing after it.
-/

set_option autoImplicit false

namespace Federation.Json

/-- An array or object around the value that is being read; finished parts stand last first. -/
inductive Frame where
  | items (done : List Value)
  | member (done : List (Text × Value)) (name : Text)

inductive Machine where
  | value (stack : List Frame)
  | firstItem (stack : List Frame)
  | afterItem (done : List Value) (stack : List Frame)
  | firstName (stack : List Frame)
  | memberName (done : List (Text × Value)) (stack : List Frame)
  | colon (done : List (Text × Value)) (name : Text) (stack : List Frame)
  | afterMember (done : List (Text × Value)) (stack : List Frame)
  | finished (v : Value)

namespace Machine

def place (v : Value) : List Frame → Machine
  | [] => finished v
  | .items done :: stack => afterItem (v :: done) stack
  | .member done name :: stack => afterMember ((name, v) :: done) stack

def wordValue? (cs : List Char) : Option Value :=
  if cs = ['n', 'u', 'l', 'l'] then some .null
  else if cs = ['t', 'r', 'u', 'e'] then some (.bool true)
  else if cs = ['f', 'a', 'l', 's', 'e'] then some (.bool false)
  else (Number.ofChars? cs).map .number

def beginValue? (stack : List Frame) : Token → Option Machine
  | .openArray => some (firstItem stack)
  | .openObject => some (firstName stack)
  | .text t => some (place (.string t) stack)
  | .word cs => (wordValue? cs).map (place · stack)
  | _ => none

def step? : Machine → Token → Option Machine
  | value stack, t => beginValue? stack t
  | firstItem stack, .closeArray => some (place (.array []) stack)
  | firstItem stack, t => beginValue? (.items [] :: stack) t
  | afterItem done stack, .comma => some (value (.items done :: stack))
  | afterItem done stack, .closeArray => some (place (.array done.reverse) stack)
  | firstName stack, .closeObject => some (place (.object []) stack)
  | firstName stack, .text t => some (colon [] t stack)
  | memberName done stack, .text t => some (colon done t stack)
  | colon done t stack, .colon => some (value (.member done t :: stack))
  | afterMember done stack, .comma => some (memberName done stack)
  | afterMember done stack, .closeObject => some (place (.object done.reverse) stack)
  | _, _ => none

def run? (m : Machine) (ts : List Token) : Option Machine := ts.foldlM step? m

def result? : Machine → Option Value
  | finished v => some v
  | _ => none

end Machine

namespace Value

def ofTokens? (ts : List Token) : Option Value :=
  ((Machine.value []).run? ts).bind Machine.result?

def ofChars? (cs : List Char) : Option Value := (tokens? cs).bind ofTokens?

def parse? (s : String) : Option Value := ofChars? s.toList

end Value

end Federation.Json
