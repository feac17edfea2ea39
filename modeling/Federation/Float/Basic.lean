import Federation.Float.Format

/-!
# Floating-point numbers

A number is a sign and a rank on the grid of its format, or the one value that stands for every
invalid result. Two numbers are the same value of this type exactly when they have the same bits,
all invalid results taken as one. Arithmetic computes the exact result in units and rounds it once.
-/

set_option autoImplicit false

namespace Federation

inductive Binary (f : FloatFormat) where
  | nan
  | number (negative : Bool) (rank : Fin (f.top + 1))

abbrev Single := Binary .single
abbrev Double := Binary .double

namespace Binary

variable {f : FloatFormat}

instance : DecidableEq (Binary f)
  | nan, nan => isTrue rfl
  | nan, number _ _ => isFalse (by simp)
  | number _ _, nan => isFalse (by simp)
  | number s a, number t b =>
    if h : s = t ∧ a.val = b.val then isTrue (by rw [h.1, Fin.ext h.2])
    else isFalse (by
      intro e
      injection e with hs ha
      exact h ⟨hs, congrArg Fin.val ha⟩)

/-- The number at a rank; every rank past infinity means infinity. -/
def atRank (negative : Bool) (rank : Nat) : Binary f :=
  .number negative ⟨min rank f.top, Nat.lt_succ_of_le (Nat.min_le_right _ _)⟩

def zero : Binary f := atRank false 0
def negZero : Binary f := atRank true 0
def infinity (negative : Bool) : Binary f := atRank negative f.top

def ofRatio (negative : Bool) (num den : Nat) : Binary f :=
  atRank negative (f.nearest (num * f.one) den)

def ofNat (n : Nat) : Binary f := ofRatio false n 1

def ofInt (n : Int) : Binary f := ofRatio (decide (n < 0)) n.natAbs 1

def isNaN : Binary f → Bool
  | nan => true
  | number _ _ => false

def isFinite : Binary f → Bool
  | nan => false
  | number _ rank => decide (rank.val < f.top)

def position : Binary f → Option Int
  | nan => none
  | number negative rank => some (if negative then -(rank.val : Int) else rank.val)

/-- Every comparison with an invalid value fails. -/
def compares (test : Int → Int → Bool) (x y : Binary f) : Bool :=
  match x.position, y.position with
  | some a, some b => test a b
  | _, _ => false

def lt (x y : Binary f) : Bool := compares (fun a b => decide (a < b)) x y
def le (x y : Binary f) : Bool := compares (fun a b => decide (a ≤ b)) x y
def eq (x y : Binary f) : Bool := compares (fun a b => decide (a = b)) x y

def max (x y : Binary f) : Binary f :=
  if x.isNaN then y else if x.lt y then y else x

def clamp (x low high : Binary f) : Binary f :=
  if x.lt low then low else if high.lt x then high else x

def neg : Binary f → Binary f
  | nan => nan
  | number negative rank => number (!negative) rank

def abs : Binary f → Binary f
  | nan => nan
  | number _ rank => number false rank

/-- Rounds a quotient in units; a vanishing one takes the given sign. -/
def ofUnits (zeroNegative : Bool) (num : Int) (den : Nat) : Binary f :=
  if num = 0 then atRank zeroNegative 0 else atRank (decide (num < 0)) (f.nearest num.natAbs den)

def add : Binary f → Binary f → Binary f
  | nan, _ => nan
  | _, nan => nan
  | number s a, number t b =>
    if a.val = f.top then if b.val = f.top ∧ s ≠ t then nan else number s a
    else if b.val = f.top then number t b
    else ofUnits (s && t) (f.signedUnits s a.val + f.signedUnits t b.val) 1

def sub (x y : Binary f) : Binary f := x.add y.neg

def mul : Binary f → Binary f → Binary f
  | nan, _ => nan
  | _, nan => nan
  | number s a, number t b =>
    if a.val = f.top ∨ b.val = f.top then
      if a.val = 0 ∨ b.val = 0 then nan else infinity (s != t)
    else atRank (s != t) (f.nearest (f.units a.val * f.units b.val) f.one)

def mulAdd : Binary f → Binary f → Binary f → Binary f
  | nan, _, _ => nan
  | _, nan, _ => nan
  | _, _, nan => nan
  | number s a, number t b, number u c =>
    if a.val = f.top ∨ b.val = f.top then
      if a.val = 0 ∨ b.val = 0 ∨ (c.val = f.top ∧ u ≠ (s != t)) then nan else infinity (s != t)
    else if c.val = f.top then number u c
    else ofUnits ((s != t) && u)
      (f.signedUnits s a.val * f.signedUnits t b.val + f.signedUnits u c.val * f.one) f.one

def div : Binary f → Binary f → Binary f
  | nan, _ => nan
  | _, nan => nan
  | number s a, number t b =>
    if a.val = f.top then if b.val = f.top then nan else infinity (s != t)
    else if b.val = f.top then atRank (s != t) 0
    else if b.val = 0 then if a.val = 0 then nan else infinity (s != t)
    else atRank (s != t) (f.nearest (f.units a.val * f.one) (f.units b.val))

def sqrt : Binary f → Binary f
  | nan => nan
  | number s a =>
    if a.val = 0 then number s a
    else if s then nan
    else if a.val = f.top then number s a
    else atRank false (f.nearestRoot (f.units a.val * f.one))

def convert (g : FloatFormat) : Binary f → Binary g
  | nan => .nan
  | number s a =>
    if a.val = f.top then .infinity s
    else atRank s (g.nearest (f.units a.val * g.one) f.one)

def toDouble (x : Binary f) : Double := x.convert .double
def toSingle (x : Binary f) : Single := x.convert .single

instance : Add (Binary f) := ⟨add⟩
instance : Sub (Binary f) := ⟨sub⟩
instance : Mul (Binary f) := ⟨mul⟩
instance : Div (Binary f) := ⟨div⟩
instance : Neg (Binary f) := ⟨neg⟩
instance : Inhabited (Binary f) := ⟨zero⟩

def signBit (f : FloatFormat) : Nat := 1 <<< (f.exponentBits + f.precision - 1)

/-- The stored form: the sign bit, then the rank. The invalid value has no form of its own. -/
def toBits? : Binary f → Option Nat
  | nan => none
  | number s a => some ((if s then signBit f else 0) + a.val)

def ofBits (bits : Nat) : Binary f :=
  let rank := bits % signBit f
  if rank ≤ f.top then atRank (bits / signBit f % 2 == 1) rank else nan

theorem toBits?_eq_none_iff (x : Binary f) : x.toBits? = none ↔ x = nan := by
  cases x <;> simp [toBits?]

end Binary

end Federation
