import Federation.Proofs.Float.Bounds
import Federation.Proofs.Float.Narrowing

/-!
# From single to double precision

A finite number of single precision is one of double precision too, and a whole multiple of the
least positive number of single precision. So is the exact difference of two such numbers. Unless it
is zero, rounding leaves it at that least number or above, and its square is far from where double
precision ends: a difference of entries that are not equal never vanishes.
-/

set_option autoImplicit false

namespace Federation

namespace FloatFormat

variable (f : FloatFormat)

theorem units_significand (rank : Nat) :
    ∃ q, f.units rank = q * 2 ^ f.step rank ∧ q < 2 ^ f.precision := by
  obtain ⟨hl, hu, -⟩ := f.step_spec rank
  rw [f.two_mul_binade] at hu
  exact ⟨rank - f.step rank * f.binade, Nat.shiftLeft_eq _ _, by omega⟩

theorem units_nearest_exact {q shift den : Nat} (hd : 0 < den) (hq : q < 2 ^ f.precision)
    (ht : f.nearest (q * 2 ^ shift * den) den < f.top) :
    f.units (f.nearest (q * 2 ^ shift * den) den) = q * 2 ^ shift := by
  have hu : f.units (f.rankBelow (q * 2 ^ shift)) = q * 2 ^ shift := f.units_rankBelow hq
  by_cases hle : f.rankBelow (q * 2 ^ shift) ≤ f.top
  · rw [f.nearest_exact hd hq hle, hu]
  · have hmono := f.units_strictMono.monotone (Nat.le_of_not_le hle)
    rw [hu] at hmono
    have hfar := f.le_nearest hd le_rfl (Nat.mul_le_mul_right den hmono)
    omega

/-- The least positive number of single precision, in units of double precision. -/
def grain : Nat := 2 ^ (double.scale - single.scale)

theorem grain_halves {k : Nat} (h : double.scale - single.scale = k + 1) :
    grain = 2 ^ k + 2 ^ k := by
  rw [grain, h, Nat.pow_succ, Nat.mul_two]

theorem one_eq_grain_mul : double.one = grain * single.one := by
  rw [grain, double.one_eq_two_pow, single.one_eq_two_pow, ← Nat.pow_add,
    Nat.sub_add_cancel (show single.scale ≤ double.scale by decide)]

theorem one_le_grain_mul_grain : double.one ≤ grain * grain := by
  rw [grain, double.one_eq_two_pow, ← Nat.pow_add]
  exact Nat.pow_le_pow_right Nat.two_pos (by decide)

theorem units_widen {a : Nat}
    (ht : double.nearest (single.units a * double.one) single.one < double.top) :
    double.units (double.nearest (single.units a * double.one) single.one)
      = single.units a * grain := by
  obtain ⟨q, hu, hq⟩ := single.units_significand a
  have hgrain : single.units a * grain
      = q * 2 ^ (single.step a + (double.scale - single.scale)) := by
    rw [hu, grain, Nat.pow_add, Nat.mul_assoc]
  rw [one_eq_grain_mul, ← Nat.mul_assoc, hgrain] at ht ⊢
  exact double.units_nearest_exact (Binary.one_pos _) (lt_of_lt_of_le hq (by decide)) ht

theorem grain_le_units_nearest {k : Nat} (hk : 0 < k) :
    grain ≤ double.units (double.nearest (k * grain) 1) := by
  have hu : double.units (bit (double.scale - single.scale)) = grain := units_bit _
  rw [← hu]
  apply double.units_strictMono.monotone
  apply double.le_nearest Nat.one_pos (bit_le_top (by decide))
  rw [hu, Nat.mul_one]
  exact Nat.le_mul_of_pos_left _ hk

end FloatFormat

namespace Binary

open FloatFormat (single double grain)

variable {f : FloatFormat} {x y : Binary f}

/-- The number in units; the invalid value counts for nothing. -/
def amount : Binary f → Int
  | nan => 0
  | number negative rank => f.signedUnits negative rank.val

theorem eq_iff_amount (hx : x.isNaN = false) (hy : y.isNaN = false) :
    x.eq y = true ↔ x.amount = y.amount := by
  cases x with
  | nan => cases hx
  | number n a =>
    cases y with
    | nan => cases hy
    | number m b =>
      have hsame : f.units a.val = f.units b.val ↔ a.val = b.val :=
        f.units_strictMono.injective.eq_iff
      have ha := f.units_eq_zero_iff a.val
      have hb := f.units_eq_zero_iff b.val
      cases n <;> cases m <;>
        simp only [eq, compares, position, amount, FloatFormat.signedUnits, decide_eq_true_eq,
          Bool.false_eq_true, if_true, if_false] <;> omega

theorem abs_sub_eq (hx : x.isFinite = true) (hy : y.isFinite = true) :
    (x - y).abs = atRank false (f.nearest (x.amount - y.amount).natAbs 1) := by
  cases x with
  | nan => cases hx
  | number n a =>
    cases y with
    | nan => cases hy
    | number m b =>
      rw [number_sub (isFinite_number.mp hx) (isFinite_number.mp hy), abs_ofUnits _ _ Nat.one_pos]
      rfl

theorem isNaN_of_isFinite (h : x.isFinite = true) : x.isNaN = false := by
  cases x with
  | nan => cases h
  | number n a => rfl

theorem within_widen {x : Single} (h : x.isFinite = true) : Within 128 x.toDouble :=
  Euclid.widen_hasRank h

theorem amount_widen {x : Single} (h : x.isFinite = true) :
    x.toDouble.amount = x.amount * grain := by
  have hw := within_widen h
  cases x with
  | nan => cases h
  | number n a =>
    have hle := double.nearest_le_top (single.units a.val * double.one) single.one
    have hwide : (number n a : Single).toDouble
        = atRank n (double.nearest (single.units a.val * double.one) single.one) := by
      simp only [toDouble, convert, if_neg (isFinite_number.mp h)]
    rw [hwide] at hw ⊢
    have ht := lt_of_le_of_lt (within_iff.mp hw).2 (FloatFormat.power_lt_top (by decide))
    simp only [Binary.rank, atRank, Nat.min_eq_left hle] at ht
    simp only [amount, atRank, FloatFormat.signedUnits, Nat.min_eq_left hle,
      FloatFormat.units_widen ht]
    split
    · rw [Nat.cast_mul, Int.neg_mul]
    · rw [Nat.cast_mul]

variable {x y : Single}

theorem gap_hasRank (hx : x.isFinite = true) (hy : y.isFinite = true) :
    ∃ r, (x.toDouble - y.toDouble).abs.HasRank r ∧ r < double.top ∧
      (x.eq y = true ∧ r = 0 ∨ x.eq y = false ∧ grain ≤ double.units r) := by
  have hwx := within_widen hx
  have hwy := within_widen hy
  obtain ⟨r, hr, hle⟩ := hwx.sub hwy le_rfl le_rfl (by decide)
  refine ⟨r, hr, lt_of_le_of_lt hle (FloatFormat.power_lt_top (by decide)), ?_⟩
  -- Before it is rounded the difference is a whole number of grains.
  have habs := abs_sub_eq (hwx.isFinite (by decide)) (hwy.isFinite (by decide))
  have hdiff : (x.toDouble.amount - y.toDouble.amount).natAbs
      = (x.amount - y.amount).natAbs * grain := by
    rw [amount_widen hx, amount_widen hy, ← Int.sub_mul, Int.natAbs_mul, Int.natAbs_natCast]
  rw [hdiff] at habs
  have hrank := hr.rank_eq
  rw [habs, (hasRank_atRank (double.nearest_le_top _ _)).rank_eq] at hrank
  have hiff := eq_iff_amount (isNaN_of_isFinite hx) (isNaN_of_isFinite hy)
  by_cases heq : x.eq y = true
  · left
    rw [hiff.mp heq, Int.sub_self, Int.natAbs_zero, Nat.zero_mul,
      double.nearest_zero Nat.one_pos] at hrank
    exact ⟨heq, hrank.symm⟩
  · right
    have hne : 0 < (x.amount - y.amount).natAbs :=
      Int.natAbs_pos.mpr (sub_ne_zero.mpr fun h => heq (hiff.mpr h))
    exact ⟨Bool.eq_false_iff.mpr heq, hrank ▸ FloatFormat.grain_le_units_nearest hne⟩

theorem square_vanishes_iff (hx : x.isFinite = true) (hy : y.isFinite = true) :
    ((x.toDouble - y.toDouble) * (x.toDouble - y.toDouble)).HasRank 0 ↔ x.eq y = true := by
  obtain ⟨r, hr, ht, hgap⟩ := gap_hasRank hx hy
  have hsquare := mul_self_of_lt hr ht
  rcases hgap with ⟨heq, rfl⟩ | ⟨hne, hgrain⟩
  · rw [double.units_zero, Nat.zero_mul, double.nearest_zero (one_pos _)] at hsquare
    exact iff_of_true hsquare heq
  · have hpos : 1 ≤ double.nearest (double.units r * double.units r) double.one := by
      apply double.le_nearest (one_pos _) double.top_pos
      rw [double.units_one, Nat.one_mul]
      exact le_trans FloatFormat.one_le_grain_mul_grain (Nat.mul_le_mul hgrain hgrain)
    refine iff_of_false (fun hzero => ?_) (by simp [hne])
    have hrank := hsquare.rank_eq
    rw [hzero.rank_eq] at hrank
    omega

end Binary

end Federation
