import Federation.Count
import Federation.Decimal.Shortest

/-!
# Number literals

A literal keeps every digit that was written. It denotes a machine number in two ways: a whole
number that fits a 64-bit word is rounded as it stands, and every other literal is first scaled in
double precision from a 64-bit significand. In the other direction a floating-point number is
written by its shortest decimal.
-/

set_option autoImplicit false

namespace Federation.Json

structure Number where
  negative : Bool
  whole : Nat
  fraction : List Digit
  exponent : Option Int
  deriving DecidableEq

namespace Number

def exponentChars : Option Int → List Char
  | none => []
  | some e =>
    'e' :: (if e < 0 then '-' else '+') :: (Decimal.digits e.natAbs).map Digit.toChar

def toChars (n : Number) : List Char :=
  (if n.negative then ['-'] else [])
    ++ (Decimal.digits n.whole).map Digit.toChar
    ++ (if n.fraction.isEmpty then [] else '.' :: n.fraction.map Digit.toChar)
    ++ exponentChars n.exponent

def spanDigits : List Char → List Digit × List Char
  | [] => ([], [])
  | c :: cs =>
    match Digit.ofChar? c with
    | some d => (d :: (spanDigits cs).1, (spanDigits cs).2)
    | none => ([], c :: cs)

def readSign : List Char → Bool × List Char
  | '-' :: cs => (true, cs)
  | cs => (false, cs)

def readWhole? (cs : List Char) : Option (Nat × List Char) :=
  match spanDigits cs with
  | ([], _) => none
  | ([d], rest) => some (d.val, rest)
  | (d :: ds, rest) => if d.val = 0 then none else some (Decimal.value (d :: ds), rest)

def readFraction? : List Char → Option (List Digit × List Char)
  | '.' :: cs =>
    match spanDigits cs with
    | ([], _) => none
    | (ds, rest) => some (ds, rest)
  | cs => some ([], cs)

def readExponentSign : List Char → Bool × List Char
  | '+' :: cs => (false, cs)
  | cs => readSign cs

def readExponent? : List Char → Option (Option Int)
  | [] => some none
  | c :: cs =>
    if c = 'e' ∨ c = 'E' then
      match spanDigits (readExponentSign cs).2 with
      | ([], _) => none
      | (ds, []) =>
        let magnitude : Int := Decimal.value ds
        some (some (if (readExponentSign cs).1 then -magnitude else magnitude))
      | (_, _ :: _) => none
    else none

def ofChars? (cs : List Char) : Option Number := do
  let (negative, cs) := readSign cs
  let (whole, cs) ← readWhole? cs
  let (fraction, cs) ← readFraction? cs
  let exponent ← readExponent? cs
  return ⟨negative, whole, fraction, exponent⟩

def ofNat (n : Nat) : Number := ⟨false, n, [], none⟩

def toNat? (n : Number) : Option Nat :=
  if !n.negative && n.fraction.isEmpty && n.exponent.isNone && decide (n.whole < Count.bound)
  then some n.whole else none

def word? (n : Number) : Option Nat :=
  if n.fraction.isEmpty && n.exponent.isNone
      && decide (n.whole < Count.bound ∧ (n.negative = true → n.whole ≤ Count.bound / 2))
  then some n.whole else none

/-- Appends digits to a significand up to the first one that would not fit; returns what is left
of them. -/
def gather (significand : Nat) : List Digit → Nat × List Digit
  | [] => (significand, [])
  | d :: ds =>
    if 10 * significand + d.val < Count.bound then gather (10 * significand + d.val) ds
    else (significand, d :: ds)

/-- The significand and the power of ten that a literal is scaled by. Whole digits that do not fit
still count for the power, further fraction digits do not count at all. -/
def scaling (n : Number) : Nat × Int :=
  let (front, unread) := gather 0 (Decimal.digits n.whole)
  let (significand, dropped) := gather front n.fraction
  let power : Int := unread.length - (n.fraction.length - dropped.length : Nat)
  (significand, power + n.exponent.getD 0)

def powerOfTen (k : Nat) : Double := .ofNat (Decimal.tens k)

/-- `significand * 10 ^ power` with one rounding for each factor. The largest factor has 308 as its
exponent; a result beyond the finite numbers is refused. -/
def scale? (significand : Nat) (power : Int) : Option Double :=
  let x : Double := .ofNat significand
  if 308 < power then if significand = 0 then some x else none
  else if 0 ≤ power then
    let y := x * powerOfTen power.toNat
    if y.isFinite then some y else none
  else if -308 ≤ power then some (x / powerOfTen (-power).toNat)
  else if -616 ≤ power then some (x / powerOfTen 308 / powerOfTen (-power - 308).toNat)
  else some .zero

def scaled? (n : Number) : Option Double :=
  let (significand, power) := n.scaling
  (scale? significand power).map fun x => if n.negative then -x else x

def toDouble? (n : Number) : Option Double :=
  match n.word? with
  | some k => some (.ofRatio n.negative k 1)
  | none => n.scaled?

/-- A literal that is no word is rounded to double precision first. -/
def toSingle? (n : Number) : Option Single :=
  match n.word? with
  | some k => some (.ofRatio n.negative k 1)
  | none => n.scaled?.map Binary.toSingle

structure Window where
  first : Int
  last : Int

def singleWindow : Window := ⟨-6, 12⟩
def doubleWindow : Window := ⟨-5, 15⟩

/-- The literal of a decimal: positional inside the window, where a digit follows the point in any
case, and otherwise with one digit before the point. -/
def ofDecimal (window : Window) (negative : Bool) (d : Decimal) : Number :=
  let ds := Decimal.digits d.significand
  let leading : Int := d.exponent + ds.length - 1
  if window.first ≤ leading ∧ leading ≤ window.last then
    if 0 ≤ d.exponent then
      ⟨negative, d.significand * Decimal.tens d.exponent.toNat, [Digit.zero], none⟩
    else
      let places := (-d.exponent).toNat
      let padded := List.replicate (places - ds.length) Digit.zero ++ ds
      ⟨negative, d.significand / Decimal.tens places, padded.drop (padded.length - places), none⟩
  else
    ⟨negative, Decimal.value (ds.take 1), ds.drop 1, some leading⟩

def ofBinary? {f : FloatFormat} (window : Window) : Binary f → Option Number
  | .nan => none
  | .number negative rank =>
    if rank.val = f.top then none
    else some (ofDecimal window negative (Decimal.shortest f .toEven rank.val))

end Number

end Federation.Json
