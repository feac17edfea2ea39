import Federation.Float.Basic

/-!
# Scalars

The rules and statistics are written once for every kind of number that offers these operations.
Floating-point numbers are what runs; rational numbers give the same code its exact meaning.
-/

set_option autoImplicit false

namespace Federation

class Scalar (α : Type) extends Add α, Sub α, Mul α, Div α, Neg α where
  /-- The value nearest to a quotient of natural numbers. -/
  ofRatio : Nat → Nat → α
  /-- Where sums start: adding a value to it gives that value. -/
  emptySum : α
  abs : α → α
  lt : α → α → Bool
  eq : α → α → Bool

namespace Scalar

variable {α : Type} [Scalar α]

def ofNat (n : Nat) : α := ofRatio n 1
def zero : α := ofNat 0
def one : α := ofNat 1

def sum (xs : List α) : α := xs.foldl (· + ·) emptySum

end Scalar

/-- Only the negative zero leaves both zeros as they are. -/
instance (f : FloatFormat) : Scalar (Binary f) where
  ofRatio := Binary.ofRatio false
  emptySum := .negZero
  abs := Binary.abs
  lt := Binary.lt
  eq := Binary.eq

instance : Scalar Rat where
  ofRatio a b := (a : Rat) / (b : Rat)
  emptySum := 0
  abs x := if x < 0 then -x else x
  lt x y := decide (x < y)
  eq x y := decide (x = y)

end Federation
