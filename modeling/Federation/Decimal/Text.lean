import Federation.Decimal.Shortest

/-!
# Numbers in messages

Messages show a number by its shortest decimal, always positionally and without a trailing point,
or with a fixed count of places.
-/

set_option autoImplicit false

namespace Federation.Decimal

def natText (n : Nat) : String := toText (digits n)

def plain (d : Decimal) : String :=
  let ds := digits d.significand
  if 0 ≤ d.exponent then toText (ds ++ List.replicate d.exponent.toNat Digit.zero)
  else
    let places := (-d.exponent).toNat
    if places < ds.length then
      toText (ds.take (ds.length - places)) ++ "." ++ toText (ds.drop (ds.length - places))
    else "0." ++ toText (List.replicate (places - ds.length) Digit.zero ++ ds)

def signText (negative : Bool) : String := if negative then "-" else ""

/-- The number's shortest text; a tie between two shortest texts goes up. -/
def floatText {f : FloatFormat} : Binary f → String
  | .nan => "NaN"
  | .number s a =>
    signText s ++ if a.val = f.top then "inf" else plain (shortest f .up a.val)

def roundHalfEven (num den : Nat) : Nat :=
  let q := num / den
  match compare (2 * (num % den)) den with
  | .lt => q
  | .gt => q + 1
  | .eq => q + q % 2

def fixedText {f : FloatFormat} (places : Nat) : Binary f → String
  | .nan => "NaN"
  | .number s a =>
    signText s ++
      if a.val = f.top then "inf"
      else
        let scaled := roundHalfEven (f.units a.val * tens places) f.one
        let tail := digits (scaled % tens places)
        natText (scaled / tens places) ++ "."
          ++ toText (List.replicate (places - tail.length) Digit.zero ++ tail)

end Federation.Decimal
