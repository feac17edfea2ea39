import Federation.Float.Basic

/-!
# The exponential function

The argument is split into a whole multiple of the logarithm of two and a remainder. The remainder
goes through the exponential series in fixed point, the multiple becomes a power of two. Every step
rounds down and none of them can decrease when its argument grows, so the function is monotone; the
fixed point holds far more bits than a number, so only the last rounding shows.
-/

set_option autoImplicit false

namespace Federation.Exponential

def one : Nat := 1 <<< 128

def lnTwo : Nat := 0xb17217f7d1cf79abc9e3b39803f2f6af

/-- `1 + r/k * (1 + r/(k+1) * (1 + …))` with the given number of factors, rounded down. -/
def series (r : Nat) : (factors k : Nat) → Nat
  | 0, _ => one
  | factors + 1, k => one + r * series r factors (k + 1) / (k * one)

def factors : Nat := 40

end Federation.Exponential

namespace Federation.Binary

open Exponential

variable {f : FloatFormat}

def exp : Binary f → Binary f
  | nan => nan
  | number s a =>
    if a.val = f.top then if s then zero else infinity false
    else
      let x : Int := f.signedUnits s a.val * one / f.one
      let power := x / lnTwo
      let rest := (x % lnTwo).toNat
      if power < -(f.scale + 2 : Int) then zero
      else if ((1 <<< f.exponentBits : Nat) : Int) < power then infinity false
      else atRank false
        (f.nearest (series rest factors 1 <<< (power + f.scale + 2).toNat) (4 * one))

end Federation.Binary
