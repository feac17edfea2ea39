import Federation.Decimal.Digit
import Federation.Float.Basic

/-!
# Shortest decimals of floating-point numbers

Every finite magnitude is a whole number of units, hence a whole number of a small enough power of
ten, and so are the two points halfway to its neighbours. The shortest decimal is the multiple of
the largest power of ten that lies between those points; of two such multiples the nearer one
counts. All of it is arithmetic on natural numbers.
-/

set_option autoImplicit false

namespace Federation

structure Decimal where
  significand : Nat
  exponent : Int
  deriving DecidableEq

namespace Decimal

inductive Tie where
  | toEven
  | up

/-- The interval of quantities that round to a number, around the number itself. The ends belong
to it when `closed`. -/
structure Interval where
  low : Nat
  mid : Nat
  high : Nat
  closed : Bool

namespace Interval

def contains (i : Interval) (n : Nat) : Bool :=
  if i.closed then decide (i.low ≤ n ∧ n ≤ i.high) else decide (i.low < n ∧ n < i.high)

def multiple? (i : Interval) (tie : Tie) (unit : Nat) : Option Nat :=
  let below := i.mid / unit
  let down := i.contains (below * unit)
  let up := i.contains ((below + 1) * unit)
  let halves := compare (2 * (i.mid % unit)) unit
  if down && up then
    match halves, tie with
    | .lt, _ => some below
    | .gt, _ => some (below + 1)
    | .eq, .toEven => some (below + below % 2)
    | .eq, .up => some (below + 1)
  else if down then some below
  else if up then some (below + 1)
  else none

/-- Tries ever smaller powers of ten; the middle itself is a multiple of one. -/
def coarsest (i : Interval) (tie : Tie) : (power : Nat) → Nat × Nat
  | 0 => (i.mid, 0)
  | power + 1 =>
    match i.multiple? tie (tens (power + 1)) with
    | some m => (m, power + 1)
    | none => i.coarsest tie power

end Interval

def interval (f : FloatFormat) (rank : Nat) : Interval where
  low := (f.units (rank - 1) + f.units rank) * Nat.pow 5 (f.scale + 1)
  mid := 2 * f.units rank * Nat.pow 5 (f.scale + 1)
  high := (f.units rank + f.units (rank + 1)) * Nat.pow 5 (f.scale + 1)
  closed := rank % 2 == 0

def shortest (f : FloatFormat) (tie : Tie) (rank : Nat) : Decimal :=
  if rank = 0 then ⟨0, 0⟩
  else
    let i := interval f rank
    let (m, power) := i.coarsest tie (i.mid.log2 / 3 + 1)
    ⟨m, power - (f.scale + 1 : Int)⟩

end Decimal

end Federation
