import Federation.Float.Logarithm.Table

/-!
# The natural logarithm

A positive number is a power of two times a number `z` from 11/16 to 11/8, and `z` lies near a node
`c`. So its logarithm is a multiple of the logarithm of two, the logarithm of `c` and that of
`1 + r` where `r = z / c - 1` is small. Near one, where these would cancel, only the last is
summed, with more terms. All steps are in double precision with fused products, and a sum is held
as a high and a low part until the end. The result is less than a unit in the last place off; which
of the two neighbours it is depends on these steps, and on the last digits of the coefficients.
-/

set_option autoImplicit false

namespace Federation.Logarithm

def coefficient (bits : Nat) : Double := .ofBits bits

def lnTwoHigh : Double := coefficient 0x3fe62e42fefa3800

def lnTwoLow : Double := coefficient 0x3d2ef35793c76730

def start : Nat := 0x3fe6000000000000

def cellRanks : Nat := 1 <<< 45

/-- The number `2 ^ power * z`, where `z` lies at a place behind the start of the cells. -/
structure Split where
  power : Int
  place : Nat

def Split.ofRank (rank : Nat) : Split :=
  let binade := FloatFormat.double.binade
  let lifted : Int :=
    if rank < binade then
      (FloatFormat.double.rankBelow (rank <<< 52) : Int) - 52 * (binade : Int)
    else rank
  ⟨(lifted - start) / binade, ((lifted - start) % binade).toNat⟩

def tail (r square : Double) : Double :=
  .mulAdd (.mulAdd r (coefficient 0xbfc55575e506c89f) (coefficient 0x3fc999b324f10111)) square
    (.mulAdd r (coefficient 0xbfcfffffffeb4590) (coefficient 0x3fd555555551305b))

def nearNode (power : Int) (z : Double) (node : Node) : Double :=
  let r := z.mulAdd node.reciprocal (.ofInt (-1))
  let power : Double := .ofInt power
  let base := power.mulAdd lnTwoHigh node.log
  let high := base + r
  let low := power.mulAdd lnTwoLow (base - high + r)
  let square := r * r
  let low := square.mulAdd (coefficient 0xbfe0000000000001) low
  (r * square).mulAdd (tail r square) low + high

def quadratic (p q r x square : Double) : Double := square.mulAdd r (q.mulAdd x p)

def longTail (r square cube : Double) : Double :=
  let last := cube.mulAdd (coefficient 0xbfb5521375d145cd)
    (quadratic (coefficient 0x3fbc7184282ad6ca) (coefficient 0xbfb999eb43b068ff)
      (coefficient 0x3fb78182f7afd085) r square)
  let middle := last.mulAdd cube
    (quadratic (coefficient 0xbfc55555556745a7) (coefficient 0x3fc24924a344de30)
      (coefficient 0xbfbfffffa4423d65) r square)
  middle.mulAdd cube
    (quadratic (coefficient 0x3fd5555555555577) (coefficient 0xbfcffffffffffdcb)
      (coefficient 0x3fc999999995dd0c) r square)

/-- The front half of the digits, which can be squared without an error. -/
def front (r : Double) : Double :=
  let shift : Double := .ofNat (1 <<< 27)
  shift.neg.mulAdd r (r.mulAdd shift r)

/-- The logarithm of `1 + r`. The square of `r` is the square of its front and the product of its
back with the sum of both. -/
def nearOne (r : Double) : Double :=
  let minusHalf : Double := .ofRatio true 1 2
  let square := r * r
  let cube := r * square
  let frontSquare := front r * front r
  let high := frontSquare.mulAdd minusHalf r
  let low := frontSquare.mulAdd minusHalf (r - high)
  let low := (minusHalf * (r - front r)).mulAdd (r + front r) low
  high + (longTail r square cube).mulAdd cube low

def isNearOne (x : Double) : Bool :=
  Binary.le (.ofRatio false 15 16) x && Binary.lt x (.ofRatio false 4361 4096)

def ofRank (rank : Nat) : Double :=
  let x : Double := .atRank false rank
  if isNearOne x then nearOne (x - .ofNat 1)
  else
    let split := Split.ofRank rank
    match nodes[split.place / cellRanks]? with
    | some node => nearNode split.power (.atRank false (start + split.place)) node
    | none => .nan

end Federation.Logarithm

namespace Federation.Binary

def ln : Double → Double
  | nan => nan
  | number s a =>
    if a.val = 0 then infinity true
    else if s then nan
    else if a.val = FloatFormat.double.top then infinity false
    else Logarithm.ofRank a.val

end Federation.Binary
