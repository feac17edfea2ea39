/-!
# String literals

What stands between the quotes of a string literal, and the text that it denotes. A character
outside the first plane may be escaped as two halves; a half that stands alone is well written but
denotes no text.
-/

set_option autoImplicit false

namespace Federation.Json.Quoted

def hexDigit (n : Nat) : Char := Nat.digitChar n

def escape (c : Char) : List Char :=
  if c = '"' then ['\\', '"']
  else if c = '\\' then ['\\', '\\']
  else if c.toNat = 8 then ['\\', 'b']
  else if c.toNat = 9 then ['\\', 't']
  else if c.toNat = 10 then ['\\', 'n']
  else if c.toNat = 12 then ['\\', 'f']
  else if c.toNat = 13 then ['\\', 'r']
  else if c.toNat < 32 then
    ['\\', 'u', '0', '0', hexDigit (c.toNat / 16), hexDigit (c.toNat % 16)]
  else [c]

def encode (cs : List Char) : List Char := cs.flatMap escape

inductive Piece where
  | char (c : Char)
  | half (code : Nat)
  deriving DecidableEq

def hexValue? (c : Char) : Option Nat :=
  if '0' ≤ c ∧ c ≤ '9' then some (c.toNat - '0'.toNat)
  else if 'a' ≤ c ∧ c ≤ 'f' then some (c.toNat - 'a'.toNat + 10)
  else if 'A' ≤ c ∧ c ≤ 'F' then some (c.toNat - 'A'.toNat + 10)
  else none

def hexCode? (a b c d : Char) : Option Nat := do
  return 4096 * (← hexValue? a) + 256 * (← hexValue? b) + 16 * (← hexValue? c) + (← hexValue? d)

def isHalf (code : Nat) : Bool := decide (0xd800 ≤ code ∧ code < 0xe000)

def ofCode (code : Nat) : Piece := if isHalf code then .half code else .char (Char.ofNat code)

def unescape? (c : Char) : Option Char :=
  if c = '"' ∨ c = '\\' ∨ c = '/' then some c
  else if c = 'b' then some (Char.ofNat 8)
  else if c = 't' then some (Char.ofNat 9)
  else if c = 'n' then some (Char.ofNat 10)
  else if c = 'f' then some (Char.ofNat 12)
  else if c = 'r' then some (Char.ofNat 13)
  else none

def pieces? : List Char → Option (List Piece)
  | [] => some []
  | '\\' :: 'u' :: a :: b :: c :: d :: rest => do
    return ofCode (← hexCode? a b c d) :: (← pieces? rest)
  | '\\' :: c :: rest => do
    return .char (← unescape? c) :: (← pieces? rest)
  | c :: rest =>
    if c = '\\' ∨ c.toNat < 32 then none else (pieces? rest).map (.char c :: ·)

def paired (upper lower : Nat) : Char :=
  Char.ofNat (0x10000 + (upper - 0xd800) * 0x400 + (lower - 0xdc00))

def join? : List Piece → Option (List Char)
  | [] => some []
  | .char c :: rest => (join? rest).map (c :: ·)
  | .half upper :: .half lower :: rest =>
    if upper < 0xdc00 ∧ 0xdc00 ≤ lower then (join? rest).map (paired upper lower :: ·) else none
  | .half _ :: _ => none

/-- Fails on text that is no literal. The literal itself may still denote no text. -/
def decode? (cs : List Char) : Option (Option (List Char)) := (pieces? cs).map join?

end Federation.Json.Quoted
