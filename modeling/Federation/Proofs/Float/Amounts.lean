import Federation.Proofs.Float.Quotients
import Federation.Proofs.Float.Widening

/-!
# Signed amounts

Numbers are ordered as their amounts in units are. A sum, a difference or a quotient of finite
numbers is an exact quantity that is rounded once, and rounding does not take a quantity past a
number. So the middle of two finite numbers lies between them, whatever their signs are, unless
their sum is too large.
-/

set_option autoImplicit false

namespace Federation.Binary

open FloatFormat (double)

variable {f : FloatFormat} {x y : Binary f} {num : Int} {den s : Nat}

theorem natAbs_amount (x : Binary f) : x.amount.natAbs = f.units x.rank := by
  cases x with
  | nan => exact f.units_zero.symm
  | number n a => exact natAbs_signedUnits f n a.val

theorem amount_neg (x : Binary f) : (-x).amount = -x.amount := by
  cases x with
  | nan => rfl
  | number n a => exact signedUnits_not f n a.val

theorem rank_le_top (x : Binary f) : x.rank ≤ f.top := by
  cases x with
  | nan => exact Nat.zero_le _
  | number n a => exact Nat.le_of_lt_succ a.isLt

theorem isFinite_iff_rank (hx : x.isNaN = false) : x.isFinite = true ↔ x.rank < f.top := by
  cases x with
  | nan => cases hx
  | number n a => exact decide_eq_true_iff

theorem natAbs_amount_lt (hx : x.isFinite = true) : x.amount.natAbs < f.units f.top := by
  rw [natAbs_amount]
  exact f.units_strictMono ((isFinite_iff_rank (isNaN_of_isFinite hx)).mp hx)

theorem le_iff_amount (hx : x.isNaN = false) (hy : y.isNaN = false) :
    x.le y = true ↔ x.amount ≤ y.amount := by
  cases x with
  | nan => cases hx
  | number n a =>
    cases y with
    | nan => cases hy
    | number m b =>
      have hle : f.units a.val ≤ f.units b.val ↔ a.val ≤ b.val := f.units_strictMono.le_iff_le
      have hge : f.units b.val ≤ f.units a.val ↔ b.val ≤ a.val := f.units_strictMono.le_iff_le
      have ha := f.units_eq_zero_iff a.val
      have hb := f.units_eq_zero_iff b.val
      cases n <;> cases m <;>
        simp only [le, compares, position, amount, FloatFormat.signedUnits, decide_eq_true_eq,
          Bool.false_eq_true, if_true, if_false] <;> omega

theorem lt_eq_not_le (hx : x.isNaN = false) (hy : y.isNaN = false) : x.lt y = !y.le x := by
  cases x with
  | nan => cases hx
  | number n a =>
    cases y with
    | nan => cases hy
    | number m b => simp only [lt, le, compares, position, ← decide_not, Int.not_le]

theorem isFinite_of_between {z : Binary f} (hz : z.isNaN = false) (hx : x.isFinite = true)
    (hy : y.isFinite = true) (hlow : x.amount ≤ z.amount) (hhigh : z.amount ≤ y.amount) :
    z.isFinite = true := by
  have hltx := natAbs_amount_lt hx
  have hlty := natAbs_amount_lt hy
  rw [isFinite_iff_rank hz, ← f.units_strictMono.lt_iff_lt, ← natAbs_amount]
  omega

/-- How far a number is above minus infinity. -/
def level (x : Binary f) : Nat := (x.amount + f.units f.top).toNat

theorem level_le_iff (x y : Binary f) : x.level ≤ y.level ↔ x.amount ≤ y.amount := by
  have hx := f.units_strictMono.monotone (rank_le_top x)
  have hy := f.units_strictMono.monotone (rank_le_top y)
  rw [← natAbs_amount] at hx hy
  unfold level
  omega

theorem le_eq_level (hx : x.isNaN = false) (hy : y.isNaN = false) :
    x.le y = decide (x.level ≤ y.level) := by
  rw [Bool.eq_iff_iff, le_iff_amount hx hy, decide_eq_true_eq, level_le_iff]

theorem lt_eq_level (hx : x.isNaN = false) (hy : y.isNaN = false) :
    x.lt y = decide (x.level < y.level) := by
  rw [lt_eq_not_le hx hy, le_eq_level hy hx, ← decide_not, Bool.eq_iff_iff, decide_eq_true_eq,
    decide_eq_true_eq, Nat.not_le]

theorem amount_atRank (negative : Bool) {r : Nat} (h : r ≤ f.top) :
    (atRank negative r : Binary f).amount = f.signedUnits negative r := by
  simp only [atRank, amount, Nat.min_eq_left h]

theorem amount_ofUnits (zeroNegative : Bool) (num : Int) (hd : 0 < den) :
    (ofUnits zeroNegative num den : Binary f).amount
      = f.signedUnits (decide (num < 0)) (f.nearest num.natAbs den) := by
  unfold ofUnits
  by_cases hz : num = 0
  · rw [if_pos hz, amount_atRank _ (Nat.zero_le _), hz, Int.natAbs_zero, f.nearest_zero hd,
      signedUnits_eq fun _ => rfl, signedUnits_eq fun _ => rfl]
  · rw [if_neg hz, amount_atRank _ (f.nearest_le_top _ _)]

theorem rank_ofUnits (zeroNegative : Bool) (num : Int) (hd : 0 < den) :
    (ofUnits zeroNegative num den : Binary f).rank = f.nearest num.natAbs den := by
  apply f.units_strictMono.injective
  rw [← natAbs_amount, amount_ofUnits _ _ hd, natAbs_signedUnits]

theorem isNaN_ofUnits (zeroNegative : Bool) (num : Int) (den : Nat) :
    (ofUnits zeroNegative num den : Binary f).isNaN = false := by
  unfold ofUnits
  split <;> rfl

theorem le_amount_ofUnits (zeroNegative : Bool) (hd : 0 < den) (h : x.amount * den ≤ num) :
    x.amount ≤ (ofUnits zeroNegative num den : Binary f).amount := by
  have htop := rank_le_top x
  have habs : (x.amount * den).natAbs = f.units x.rank * den := by
    rw [Int.natAbs_mul, natAbs_amount, Int.natAbs_natCast]
  have hx := natAbs_amount x
  rw [amount_ofUnits _ _ hd]
  by_cases hneg : num < 0
  · -- both are below zero, so the magnitude of the quantity is not above that of the number
    have hround : f.nearest num.natAbs den ≤ x.rank := f.nearest_le hd htop (by omega)
    have hmono := f.units_strictMono.monotone hround
    have hsign : x.amount < 0 := by
      by_contra hc
      have hnonneg := Int.mul_nonneg (Int.not_lt.mp hc) (Int.natCast_nonneg den)
      omega
    rw [decide_eq_true hneg, FloatFormat.signedUnits, if_pos rfl]
    omega
  · rw [decide_eq_false hneg, FloatFormat.signedUnits, if_neg Bool.false_ne_true]
    by_cases hsign : x.amount ≤ 0
    · omega
    · have hpos : 0 < x.amount * den := Int.mul_pos (by omega) (by omega)
      have hround : x.rank ≤ f.nearest num.natAbs den := f.le_nearest hd htop (by omega)
      have hmono := f.units_strictMono.monotone hround
      omega

theorem amount_ofUnits_neg (zeroNegative : Bool) (num : Int) (hd : 0 < den) :
    (ofUnits zeroNegative (-num) den : Binary f).amount
      = -(ofUnits zeroNegative num den : Binary f).amount := by
  rw [amount_ofUnits _ _ hd, amount_ofUnits _ _ hd, Int.natAbs_neg]
  rcases Int.lt_trichotomy num 0 with hneg | rfl | hpos
  · rw [decide_eq_true hneg, decide_eq_false (by omega), ← signedUnits_not]
    rfl
  · rw [Int.natAbs_zero, f.nearest_zero hd, signedUnits_eq fun _ => rfl,
      signedUnits_eq fun _ => rfl, f.units_zero]
    rfl
  · rw [decide_eq_true (by omega), decide_eq_false (by omega), ← signedUnits_not]
    rfl

theorem amount_ofUnits_le (zeroNegative : Bool) (hd : 0 < den) (h : num ≤ x.amount * den) :
    (ofUnits zeroNegative num den : Binary f).amount ≤ x.amount := by
  have hneg : (-x).amount * den ≤ -num := by
    rw [amount_neg, Int.neg_mul]
    omega
  have hle := le_amount_ofUnits zeroNegative hd hneg
  rw [amount_neg, amount_ofUnits_neg _ _ hd] at hle
  omega

theorem add_eq_ofUnits (hx : x.isFinite = true) (hy : y.isFinite = true) :
    ∃ zeroNegative, x + y = ofUnits zeroNegative (x.amount + y.amount) 1 := by
  cases x with
  | nan => cases hx
  | number n a =>
    cases y with
    | nan => cases hy
    | number m b => exact ⟨_, number_add (isFinite_number.mp hx) (isFinite_number.mp hy)⟩

theorem atRank_nearest (negative : Bool) (q : Nat) (hd : 0 < den) :
    (atRank negative (f.nearest q den) : Binary f)
      = ofUnits negative (if negative then -(q : Int) else q) den := by
  rcases Nat.eq_zero_or_pos q with rfl | hpos
  · rw [f.nearest_zero hd, Int.natCast_zero, Int.neg_zero, ite_self]
    rfl
  · cases negative
    · simp [ofUnits, Nat.ne_of_gt hpos, Int.not_ofNat_neg]
    · simp [ofUnits, Nat.ne_of_gt hpos, hpos]

theorem div_eq_ofUnits (hx : x.isFinite = true) (hy : y.HasRank s) (hs : 0 < s) (ht : s < f.top) :
    ∃ zeroNegative, x / y = ofUnits zeroNegative (x.amount * f.one) (f.units s) := by
  cases x with
  | nan => cases hx
  | number n a =>
    have ha := isFinite_number.mp hx
    have hlt : a.val < f.top := Nat.lt_of_le_of_ne (Nat.le_of_lt_succ a.isLt) ha
    obtain ⟨m, b, rfl, rfl, hm⟩ := hasRank_iff.mp hy
    have hsign : m = false := Bool.eq_false_iff.mpr fun h => Nat.ne_of_gt hs (hm h)
    have hnum : (if n then -((f.units a.val * f.one : Nat) : Int)
        else ((f.units a.val * f.one : Nat) : Int)) = f.signedUnits n a.val * f.one := by
      cases n <;> simp [FloatFormat.signedUnits]
    refine ⟨n, ?_⟩
    show _ = ofUnits n (f.signedUnits n a.val * f.one) _
    rw [← hnum, ← atRank_nearest n _ (f.units_pos hs), ← atRank_val, ← atRank_val,
      div_atRank hlt ht hs, hsign, Bool.bne_false]

theorem amount_add_between (hx : x.isFinite = true) (hy : y.isFinite = true)
    (h : x.amount ≤ y.amount) (hsum : (x + y).isFinite = true) :
    2 * x.amount ≤ (x + y).amount ∧ (x + y).amount ≤ 2 * y.amount := by
  obtain ⟨z, hz⟩ := add_eq_ofUnits hx hy
  have habsx := natAbs_amount x
  have habsy := natAbs_amount y
  by_cases hsign : x.amount ≤ 0 ∧ 0 ≤ y.amount
  · have hlow : x.amount ≤ (x + y).amount := hz ▸ le_amount_ofUnits z Nat.one_pos (by omega)
    have hhigh : (x + y).amount ≤ y.amount := hz ▸ amount_ofUnits_le z Nat.one_pos (by omega)
    omega
  · -- the signs are equal, so the magnitudes are added
    have hexact : (x.amount + y.amount).natAbs = f.units x.rank + f.units y.rank := by omega
    have hrank : (x + y).rank = f.plus x.rank y.rank := by
      rw [hz, rank_ofUnits _ _ Nat.one_pos, hexact, FloatFormat.plus]
    have htop : f.plus x.rank y.rank < f.top := by
      rw [← hrank]
      exact (isFinite_iff_rank (hz ▸ isNaN_ofUnits _ _ _)).mp hsum
    have hamount : (x + y).amount
        = f.signedUnits (decide (x.amount + y.amount < 0)) (f.plus x.rank y.rank) := by
      rw [hz, amount_ofUnits _ _ Nat.one_pos, hexact, FloatFormat.plus]
    rw [hamount]
    by_cases hneg : x.amount < 0
    · rw [FloatFormat.plus_comm] at htop ⊢
      have hle : y.rank ≤ x.rank := f.units_strictMono.le_iff_le.mp (by omega)
      have hbetween := f.units_plus hle htop
      rw [decide_eq_true (by omega), FloatFormat.signedUnits, if_pos rfl]
      omega
    · have hle : x.rank ≤ y.rank := f.units_strictMono.le_iff_le.mp (by omega)
      have hbetween := f.units_plus hle htop
      rw [decide_eq_false (by omega), FloatFormat.signedUnits, if_neg Bool.false_ne_true]
      omega

theorem middle_amount {x y : Double} (hx : x.isFinite = true) (hy : y.isFinite = true)
    (h : x.amount ≤ y.amount) (hsum : (x + y).isFinite = true) :
    ((x + y) / Scalar.ofNat 2).isFinite = true ∧ x.amount ≤ ((x + y) / Scalar.ofNat 2).amount ∧
      ((x + y) / Scalar.ofNat 2).amount ≤ y.amount := by
  obtain ⟨hlow, hhigh⟩ := amount_add_between hx hy h hsum
  obtain ⟨z, hz⟩ := div_eq_ofUnits hsum two_hasRank (by decide)
    (FloatFormat.power_lt_top (by decide))
  have htwo : double.units (double.power 1) = 2 * double.one := FloatFormat.units_power 1
  have hd : 0 < double.units (double.power 1) :=
    htwo ▸ Nat.mul_pos Nat.two_pos (one_pos double)
  have hlow' : x.amount ≤ ((x + y) / Scalar.ofNat 2).amount := by
    rw [hz]
    refine le_amount_ofUnits z hd ?_
    rw [htwo, Nat.cast_mul, Nat.cast_ofNat, ← Int.mul_assoc, Int.mul_comm _ 2]
    exact Int.mul_le_mul_of_nonneg_right hlow (Int.natCast_nonneg _)
  have hhigh' : ((x + y) / Scalar.ofNat 2).amount ≤ y.amount := by
    rw [hz]
    refine amount_ofUnits_le z hd ?_
    rw [htwo, Nat.cast_mul, Nat.cast_ofNat, ← Int.mul_assoc, Int.mul_comm _ 2]
    exact Int.mul_le_mul_of_nonneg_right hhigh (Int.natCast_nonneg _)
  exact ⟨isFinite_of_between (hz ▸ isNaN_ofUnits _ _ _) hx hy hlow' hhigh', hlow', hhigh'⟩

end Federation.Binary
