import Federation.Json.Quoted
import Federation.Json.Value

/-!
# Tokens

A document is split into marks, string literals and bare words in one pass over its characters.
Blanks separate words and are dropped; whether a word means anything is decided later.
-/

set_option autoImplicit false

namespace Federation.Json

inductive Token where
  | openArray
  | closeArray
  | openObject
  | closeObject
  | colon
  | comma
  | text (t : Text)
  | word (cs : List Char)
  deriving DecidableEq

namespace Token

def isBlank (c : Char) : Bool := c == ' ' || c == '\t' || c == '\n' || c == '\r'

def mark? (c : Char) : Option Token :=
  if c = '[' then some openArray
  else if c = ']' then some closeArray
  else if c = '{' then some openObject
  else if c = '}' then some closeObject
  else if c = ':' then some colon
  else if c = ',' then some comma
  else none

/-- What has been read of a token so far, last character first. -/
inductive Pending where
  | gap
  | word (back : List Char)
  | quoted (back : List Char) (escaped : Bool)

def Pending.flush : Pending → List Token
  | .word back => [Token.word back.reverse]
  | _ => []

def Pending.extend (c : Char) : Pending → Pending
  | .word back => .word (c :: back)
  | _ => .word [c]

def literal? (cs : List Char) : Option Token :=
  (Quoted.decode? cs).map fun t => text (t.map String.ofList)

def scan : Pending → List Char → Option (List Token)
  | .quoted _ _, [] => none
  | pending, [] => some pending.flush
  | .quoted back true, c :: cs => scan (.quoted (c :: back) false) cs
  | .quoted back false, c :: cs =>
    if c = '"' then
      match literal? back.reverse with
      | some t => (scan .gap cs).map (t :: ·)
      | none => none
    else scan (.quoted (c :: back) (c == '\\')) cs
  | pending, c :: cs =>
    if isBlank c then (scan .gap cs).map (pending.flush ++ ·)
    else if c = '"' then (scan (.quoted [] false) cs).map (pending.flush ++ ·)
    else match mark? c with
      | some t => (scan .gap cs).map (pending.flush ++ t :: ·)
      | none => scan (pending.extend c) cs

end Token

def tokens? (cs : List Char) : Option (List Token) := Token.scan .gap cs

end Federation.Json
