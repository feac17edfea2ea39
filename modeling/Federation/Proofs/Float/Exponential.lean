import Federation.Float.Exponential
import Federation.Proofs.Float.Order

/-!
# The exponential function does not decrease

The series grows with the remainder. Below the logarithm of two it stays from one to two, so nothing
is lost where the remainder starts again at zero and the power of two goes up. All that follows is
rounded once, and so the exponential of a number is not below that of a smaller one, infinities
included.
-/

set_option autoImplicit false

namespace Federation

namespace Exponential

theorem series_mono {r r' : Nat} (h : r ≤ r') (factors k : Nat) :
    series r factors k ≤ series r' factors k := by
  induction factors generalizing k with
  | zero => exact le_rfl
  | succ factors ih =>
    exact Nat.add_le_add_left (Nat.div_le_div_right (Nat.mul_le_mul h (ih (k + 1)))) one

theorem one_le_series (r factors k : Nat) : one ≤ series r factors k := by
  cases factors with
  | zero => exact le_rfl
  | succ factors => exact Nat.le_add_right _ _

theorem series_zero (factors k : Nat) : series 0 factors k = one := by
  cases factors with
  | zero => rfl
  | succ factors => rw [series, Nat.zero_mul, Nat.zero_div, Nat.add_zero]

theorem series_le_two {r : Nat} (h : r < lnTwo) : series r factors 1 ≤ 2 * one :=
  le_trans (series_mono (Nat.le_pred_of_lt h) factors 1) (by decide +kernel)

theorem lnTwo_pos : (0 : Int) < lnTwo := by decide

theorem four_mul_one_pos : 0 < 4 * one := by decide

def scaled (shift : Nat) (x : Int) : Nat :=
  series (x % lnTwo).toNat factors 1 <<< (x / lnTwo + shift).toNat

theorem scaled_mono {shift : Nat} {x y : Int} (h : x ≤ y) (hx : -(shift : Int) ≤ x / lnTwo) :
    scaled shift x ≤ scaled shift y := by
  have hquot : x / lnTwo ≤ y / lnTwo := Int.ediv_le_ediv lnTwo_pos h
  unfold scaled
  rw [Nat.shiftLeft_eq, Nat.shiftLeft_eq]
  rcases Int.lt_or_eq_of_le hquot with hlt | heq
  · -- the power goes up, and makes up for any remainder
    have hrest : (x % lnTwo).toNat < lnTwo := by
      have hup := Int.emod_lt_of_pos x lnTwo_pos
      have hlow := Int.emod_nonneg x (Int.ne_of_gt lnTwo_pos)
      omega
    calc series (x % lnTwo).toNat factors 1 * 2 ^ (x / lnTwo + shift).toNat
        ≤ 2 * one * 2 ^ (x / lnTwo + shift).toNat := Nat.mul_le_mul_right _ (series_le_two hrest)
      _ = one * 2 ^ ((x / lnTwo + shift).toNat + 1) := by
        rw [Nat.pow_succ]
        ring
      _ ≤ one * 2 ^ (y / lnTwo + shift).toNat :=
        Nat.mul_le_mul_left _ (Nat.pow_le_pow_right Nat.two_pos (by omega))
      _ ≤ series (y % lnTwo).toNat factors 1 * 2 ^ (y / lnTwo + shift).toNat :=
        Nat.mul_le_mul_right _ (one_le_series _ _ _)
  · have hrest : (x % lnTwo).toNat ≤ (y % lnTwo).toNat := by
      rw [Int.emod_def, Int.emod_def, heq]
      omega
    rw [heq]
    exact Nat.mul_le_mul_right _ (series_mono hrest factors 1)

def rank (f : FloatFormat) (x : Int) : Nat :=
  if x / lnTwo < -(f.scale + 2 : Int) then 0
  else if ((1 <<< f.exponentBits : Nat) : Int) < x / lnTwo then f.top
  else f.nearest (scaled (f.scale + 2) x) (4 * one)

theorem rank_le_top (f : FloatFormat) (x : Int) : rank f x ≤ f.top := by
  unfold rank
  split
  · exact Nat.zero_le _
  · split
    · exact le_rfl
    · exact f.nearest_le_top _ _

theorem rank_mono (f : FloatFormat) {x y : Int} (h : x ≤ y) : rank f x ≤ rank f y := by
  have hquot : x / lnTwo ≤ y / lnTwo := Int.ediv_le_ediv lnTwo_pos h
  by_cases hlow : x / lnTwo < -(f.scale + 2 : Int)
  · rw [rank, if_pos hlow]
    exact Nat.zero_le _
  · by_cases hhigh : ((1 <<< f.exponentBits : Nat) : Int) < y / lnTwo
    · rw [rank.eq_def f y, if_neg (by omega), if_pos hhigh]
      exact rank_le_top f x
    · rw [rank, if_neg hlow, if_neg (by omega), rank, if_neg (by omega), if_neg hhigh]
      exact f.nearest_mono four_mul_one_pos four_mul_one_pos
        (Nat.mul_le_mul_right _ (scaled_mono h (by omega)))

theorem rank_zero (f : FloatFormat) : rank f 0 = f.nearest f.one 1 := by
  have hscaled : scaled (f.scale + 2) 0 = f.one * (4 * one) := by
    rw [scaled, Int.zero_emod, Int.zero_ediv, Int.zero_add, Int.toNat_natCast, Int.toNat_zero,
      series_zero, Nat.shiftLeft_eq, Nat.pow_add, f.one_eq_two_pow]
    ring
  rw [rank, Int.zero_ediv, if_neg (by omega), if_neg (Int.not_lt.mpr (Int.natCast_nonneg _)),
    hscaled]
  exact le_antisymm (f.nearest_mono four_mul_one_pos Nat.one_pos (by rw [Nat.mul_one]))
    (f.nearest_mono Nat.one_pos four_mul_one_pos (by rw [Nat.mul_one]))

end Exponential

namespace Binary

open Exponential

variable {f : FloatFormat} {x y : Binary f}

theorem exp_eq_atRank (hx : x.isFinite = true) :
    x.exp = atRank false (Exponential.rank f (x.amount * Exponential.one / f.one)) := by
  cases x with
  | nan => cases hx
  | number n a =>
    have ha := isFinite_number.mp hx
    simp only [exp, ha, if_false, Exponential.rank, scaled, amount, apply_ite (atRank false),
      Nat.cast_add, Nat.cast_ofNat, ← Int.add_assoc]
    rfl

theorem exp_infinity (negative : Bool) :
    (infinity negative : Binary f).exp = if negative then zero else infinity false := by
  simp only [infinity, atRank, Nat.min_self, exp, if_true]

theorem exp_hasRank (hx : x.isNaN = false) : ∃ r, x.exp.HasRank r := by
  rcases isFinite_or_infinity hx with hfin | ⟨n, rfl⟩
  · exact ⟨_, exp_eq_atRank hfin ▸ hasRank_atRank (Exponential.rank_le_top f _)⟩
  · rw [exp_infinity]
    cases n with
    | false => exact ⟨f.top, hasRank_atRank le_rfl⟩
    | true => exact ⟨0, hasRank_zero⟩

/-- The exponential of the larger of two numbers is not smaller. -/
theorem exp_mono (h : x.le y = true) : x.exp.le y.exp = true := by
  obtain ⟨hx, hy⟩ := isNaN_of_le h
  obtain ⟨r, hr⟩ := exp_hasRank hx
  obtain ⟨s, hs⟩ := exp_hasRank hy
  rcases le_cases h with rfl | rfl | ⟨hfx, hfy, hamount⟩
  · rw [exp_infinity, if_pos rfl, hasRank_zero.le_eq hs]
    exact decide_eq_true (Nat.zero_le s)
  · rw [exp_infinity, if_neg Bool.false_ne_true]
    exact le_infinity hr.isNaN
  · rw [exp_eq_atRank hfx, exp_eq_atRank hfy,
      (hasRank_atRank (Exponential.rank_le_top f _)).le_eq
        (hasRank_atRank (Exponential.rank_le_top f _)), decide_eq_true_eq]
    exact Exponential.rank_mono f (Int.ediv_le_ediv (Int.natCast_pos.mpr (one_pos f))
      (Int.mul_le_mul_of_nonneg_right hamount (Int.natCast_nonneg _)))

theorem exp_zero : (zero : Binary f).exp = Scalar.one := by
  have hamount : (zero : Binary f).amount = 0 := by
    rw [zero, amount_atRank _ (Nat.zero_le _), signedUnits_eq fun _ => rfl, f.units_zero]
    rfl
  have hfin : (zero : Binary f).isFinite = true := isFinite_atRank f.top_pos
  rw [exp_eq_atRank hfin, hamount, Int.zero_mul, Int.zero_ediv, Exponential.rank_zero]
  show _ = atRank false (f.nearest (1 * f.one) 1)
  rw [Nat.one_mul]

end Binary

end Federation
