/-!
# Grids of floating-point magnitudes

A binary format fixes an ascending list of magnitudes: zero, the subnormal numbers, the normal
numbers and, last, infinity. The place of a magnitude in that list is its *rank*. Every finite
magnitude is a whole number of the least positive one, so ranks are compared with exact
quantities in these *units* by arithmetic on natural numbers, and rounding is the choice between
two neighbouring ranks.
-/

set_option autoImplicit false

namespace Federation

/-- A binary format: bits of the significand, the leading one included, and of the exponent. -/
structure FloatFormat where
  precision : Nat
  exponentBits : Nat
  two_le_precision : 2 ≤ precision := by decide
  two_le_exponentBits : 2 ≤ exponentBits := by decide
  deriving DecidableEq

namespace FloatFormat

def single : FloatFormat where
  precision := 24
  exponentBits := 8

def double : FloatFormat where
  precision := 53
  exponentBits := 11

def binade (f : FloatFormat) : Nat := 1 <<< (f.precision - 1)

def top (f : FloatFormat) : Nat := ((1 <<< f.exponentBits) - 1) * f.binade

def scale (f : FloatFormat) : Nat := (1 <<< (f.exponentBits - 1)) + f.precision - 3

def one (f : FloatFormat) : Nat := 1 <<< f.scale

def step (f : FloatFormat) (rank : Nat) : Nat := rank / f.binade - 1

/-- The magnitude at a rank, in units. At `top` it is the power of two that the finite magnitudes
fall short of, which is where rounding up from the largest one leads. -/
def units (f : FloatFormat) (rank : Nat) : Nat :=
  (rank - f.step rank * f.binade) <<< f.step rank

def signedUnits (f : FloatFormat) (negative : Bool) (rank : Nat) : Int :=
  if negative then -(f.units rank : Int) else f.units rank

def rankBelow (f : FloatFormat) (n : Nat) : Nat :=
  let step := n.log2 + 1 - f.precision
  step * f.binade + (n >>> step)

/-- Rounds an exact quantity that lies from `rank` up to the next rank: `twice s` says how two
times the quantity compares with `s` units. Halfway, the even rank wins; past the finite
magnitudes lies infinity. -/
def settle (f : FloatFormat) (rank : Nat) (twice : Nat → Ordering) : Nat :=
  let rounded := match twice (f.units rank + f.units (rank + 1)) with
    | .lt => rank
    | .gt => rank + 1
    | .eq => rank + rank % 2
  min rounded f.top

def nearest (f : FloatFormat) (num den : Nat) : Nat :=
  f.settle (f.rankBelow (num / den)) fun s => compare (2 * num) (s * den)

/-- The largest number below `2 ^ bits` past `start`, built from the highest bit down, that
still passes a test which fails for good once it fails. -/
def descend (test : Nat → Bool) : (bits start : Nat) → Nat
  | 0, start => start
  | bits + 1, start =>
    descend test bits (if test (start + (1 <<< bits)) then start + (1 <<< bits) else start)

def nearestRoot (f : FloatFormat) (n : Nat) : Nat :=
  f.settle (descend (fun k => f.units k * f.units k ≤ n) (f.exponentBits + f.precision - 1) 0)
    fun s => compare (4 * n) (s * s)

theorem settle_le_top (f : FloatFormat) (rank : Nat) (twice : Nat → Ordering) :
    f.settle rank twice ≤ f.top := by
  unfold settle
  exact Nat.min_le_right _ _

theorem nearest_le_top (f : FloatFormat) (num den : Nat) : f.nearest num den ≤ f.top :=
  f.settle_le_top _ _

theorem nearestRoot_le_top (f : FloatFormat) (n : Nat) : f.nearestRoot n ≤ f.top :=
  f.settle_le_top _ _

end FloatFormat

end Federation
