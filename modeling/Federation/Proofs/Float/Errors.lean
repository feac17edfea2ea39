import Federation.Proofs.Float.Amounts
import Mathlib.Algebra.Order.Field.Basic
import Mathlib.Algebra.Order.Field.Rat
import Mathlib.Tactic.FieldSimp
import Mathlib.Tactic.NormNum

/-!
# Rounding errors

A finite number has an exact value, and an operation on finite numbers rounds a quantity that is
computed from these values. Far from both ends of the range a rounded quantity is off by one part
in `2 ^ 53` of any bound on it, and rounding does not take it past a number. So the result of a
chain of operations is enclosed by arithmetic on fractions alone.
-/

set_option autoImplicit false

namespace Federation

namespace FloatFormat

variable (f : FloatFormat)

theorem binade_lt_top : f.binade < f.top := by
  have hp : 2 ^ 2 ≤ 2 ^ f.exponentBits := Nat.pow_le_pow_right (by decide) f.two_le_exponentBits
  rw [top, Nat.one_shiftLeft]
  exact (Nat.lt_mul_iff_one_lt_left f.binade_pos).mpr (by omega)

theorem units_binade_mul (k j : Nat) :
    f.units ((k + 1) * f.binade) * 2 ^ j = f.units ((k + j + 1) * f.binade) := by
  have hunits : ∀ k, f.units ((k + 1) * f.binade) = f.binade * 2 ^ k := fun k => by
    have hb := f.binade_pos
    rw [Nat.succ_mul]
    exact f.units_eq (by omega) (Or.inr le_rfl)
  rw [hunits, hunits, Nat.pow_add, Nat.mul_assoc]

theorem units_add_step_le {k rank : Nat} (h : rank < (k + 2) * f.binade) :
    f.units rank + 2 ^ k ≤ f.units ((k + 2) * f.binade) := by
  have hb := f.binade_pos
  have hlast : (k + 2) * f.binade = k * f.binade + (2 * f.binade - 1) + 1 := by
    rw [Nat.add_mul]
    omega
  have hmono := f.units_strictMono.monotone (Nat.le_of_lt_succ (hlast ▸ h))
  rw [hlast, units_succ, f.step_eq (by omega) (Or.inr (by omega))]
  omega

theorem nearest_halfUnit {num den : Nat} (hd : 0 < den) (h : num ≤ f.binade * den) :
    2 * num ≤ 2 * (f.units (f.nearest num den) * den) + den ∧
      2 * (f.units (f.nearest num den) * den) ≤ 2 * num + den := by
  have hstep : ∀ rank ≤ f.binade, f.step rank = 0 := fun rank hr => by
    rw [step, Nat.sub_eq_zero_iff_le]
    exact (Nat.div_le_div_right hr).trans (Nat.div_self f.binade_pos).le
  have hunits : f.units f.binade = f.binade := by
    rw [units, hstep _ le_rfl, Nat.zero_mul, Nat.sub_zero, Nat.shiftLeft_zero]
  have hle : f.nearest num den ≤ f.binade :=
    f.nearest_le hd f.binade_le_top (by rwa [hunits])
  rcases Nat.eq_zero_or_pos (f.nearest num den) with hz | hpos
  · -- a quantity past half a unit is not rounded to zero
    have hborder : ¬f.border 1 * den < 2 * num := fun hlt => by
      have := (f.le_nearest_iff hd Nat.one_pos f.top_pos).mpr (Or.inl hlt)
      omega
    rw [border, units_one, Nat.sub_self, f.units_zero, Nat.zero_add, Nat.one_mul] at hborder
    rw [hz, f.units_zero]
    omega
  · obtain ⟨hup, hdown, -⟩ := f.nearest_halfStep hd hpos (lt_of_le_of_lt hle f.binade_lt_top)
    rw [hstep _ hle, Nat.pow_zero, Nat.one_mul] at hup
    rw [hstep _ (by omega), Nat.pow_zero, Nat.one_mul] at hdown
    exact ⟨hup, hdown⟩

/-- A bound on a quantity that reaches the normal numbers bounds its rounding error. -/
theorem nearest_deviation {num den bound : Nat} (hd : 0 < den) (h : num ≤ bound)
    (hnormal : f.binade * den ≤ bound) (ht : f.nearest num den < f.top) :
    2 ^ f.precision * num ≤ 2 ^ f.precision * (f.units (f.nearest num den) * den) + bound ∧
      2 ^ f.precision * (f.units (f.nearest num den) * den) ≤ 2 ^ f.precision * num + bound := by
  rcases Nat.le_total (f.binade * den) num with hbig | hsmall
  · obtain ⟨hup, hdown⟩ := f.nearest_error hd hbig ht
    rw [Nat.sub_mul, Nat.one_mul] at hup
    rw [Nat.add_mul, Nat.one_mul] at hdown
    omega
  · obtain ⟨hup, hdown⟩ := f.nearest_halfUnit hd hsmall
    have hup := Nat.mul_le_mul_left f.binade hup
    have hdown := Nat.mul_le_mul_left f.binade hdown
    rw [← f.two_mul_binade]
    constructor <;> linarith

end FloatFormat

namespace Binary

open FloatFormat (double)

variable {x y z : Double} {q : ℚ}

def value (x : Double) : ℚ := x.amount / double.one

theorem one_pos_rat : (0 : ℚ) < double.one := Nat.cast_pos.mpr (one_pos double)

theorem value_le_iff : x.value ≤ y.value ↔ x.amount ≤ y.amount := by
  rw [value, value, div_le_div_iff_of_pos_right one_pos_rat, Int.cast_le]

theorem value_neg (x : Double) : (-x).value = -x.value := by
  rw [value, value, amount_neg, Int.cast_neg, neg_div]

theorem HasRank.value_eq {r : Nat} (hx : x.HasRank r) : x.value = double.units r / double.one := by
  obtain ⟨n, a, rfl, rfl, hn⟩ := hasRank_iff.mp hx
  have hamount : (number n a : Double).amount = double.units a.val := by
    cases n with
    | false => rfl
    | true => rw [amount, signedUnits_eq fun _ => hn rfl]
  rw [value, hamount, Int.cast_natCast]

theorem units_lt_one {rank : Nat} (h : rank < double.power 0) :
    (double.units rank / double.one : ℚ) ≤ 1 - 1 / 2 ^ 53 := by
  obtain ⟨k, hk, hone⟩ : ∃ k, double.power 0 = (k + 2) * double.binade ∧ double.scale = 53 + k :=
    ⟨1021, by decide, by decide⟩
  have hstep := double.units_add_step_le (hk ▸ h)
  rw [← hk, FloatFormat.units_power, Nat.pow_zero, Nat.one_mul] at hstep
  have hdigit : double.one = 2 ^ 53 * 2 ^ k := by rw [double.one_eq_two_pow, hone, Nat.pow_add]
  have hunits : (2 ^ 53 * double.units rank + double.one : ℚ) ≤ 2 ^ 53 * double.one := by
    exact_mod_cast show 2 ^ 53 * double.units rank + double.one ≤ 2 ^ 53 * double.one by omega
  rw [div_le_iff₀ one_pos_rat]
  linarith

theorem two_pow_value {e : Nat} (he : e ≤ 1023) :
    (Scalar.ofNat (2 ^ e) : Double).isFinite = true ∧
      (Scalar.ofNat (2 ^ e) : Double).value = 2 ^ e := by
  have hrank := two_pow_hasRank he
  refine ⟨hrank.isFinite_of_le le_rfl he, ?_⟩
  rw [hrank.value_eq, FloatFormat.units_power, Nat.cast_mul, Nat.cast_pow, Nat.cast_ofNat,
    mul_div_cancel_right₀ _ one_pos_rat.ne']

theorem one_value : (Scalar.one : Double).isFinite = true ∧ (Scalar.one : Double).value = 1 := by
  have h := two_pow_value (Nat.zero_le 1023)
  rwa [Nat.pow_zero, pow_zero] at h

theorem value_of_amount {x : Double} {n : Int} (h : x.amount = n * double.one) : x.value = n := by
  rw [value, h, Int.cast_mul, Int.cast_natCast, mul_div_cancel_right₀ _ one_pos_rat.ne']

theorem zero_value : (zero : Double).value = 0 := value_of_amount (n := 0) (by decide)

theorem value_le_iff_le (hx : x.isNaN = false) (hy : y.isNaN = false) :
    x.value ≤ y.value ↔ x.le y = true := by
  rw [value_le_iff, le_iff_amount hx hy]

theorem position_of_value {e : Nat} (hx : x.isNaN = false) (hlow : -2 ^ e ≤ x.value)
    (hhigh : x.value ≤ 0) :
    ∃ p, x.position = some p ∧ -(double.power e : Int) ≤ p ∧ p ≤ 0 := by
  cases x with
  | nan => cases hx
  | number n a =>
    rw [value, le_div_iff₀ one_pos_rat] at hlow
    rw [value, div_le_iff₀ one_pos_rat, zero_mul] at hhigh
    have hlow : -((2 ^ e * double.one : Nat) : Int) ≤ (number n a : Double).amount := by
      push_cast
      rw [← Int.neg_mul]
      exact_mod_cast hlow
    have hhigh : (number n a : Double).amount ≤ 0 := by exact_mod_cast hhigh
    have habs : (number n a : Double).amount.natAbs = double.units a.val := natAbs_amount _
    rw [← FloatFormat.units_power] at hlow
    have hle : a.val ≤ double.power e := double.units_strictMono.le_iff_le.mp (by omega)
    cases n with
    | true => exact ⟨_, rfl, by simp only [if_true]; omega, by simp only [if_true]; omega⟩
    | false =>
      have hamount : (number false a : Double).amount = double.units a.val := rfl
      have hzero := (double.units_eq_zero_iff a.val).mp (by omega)
      exact ⟨0, congrArg (fun k : Nat => some (k : Int)) hzero, by omega, le_rfl⟩

/-- The number is what a quantity is rounded to. -/
def Rounds (q : ℚ) (x : Double) : Prop :=
  ∃ (zeroNegative : Bool) (num : Int) (den : Nat), 0 < den ∧ x = ofUnits zeroNegative num den ∧
    q = num / (den * double.one)

namespace Rounds

theorem isNaN (h : Rounds q x) : x.isNaN = false := by
  obtain ⟨n, num, den, -, rfl, -⟩ := h
  exact isNaN_ofUnits n num den

theorem le_value (h : Rounds q x) (hy : y.value ≤ q) : y.value ≤ x.value := by
  obtain ⟨n, num, den, hd, rfl, rfl⟩ := h
  have hden : (0 : ℚ) < den := Nat.cast_pos.mpr hd
  rw [value, div_le_div_iff₀ one_pos_rat (mul_pos hden one_pos_rat), ← mul_assoc,
    mul_le_mul_iff_of_pos_right one_pos_rat] at hy
  exact value_le_iff.mpr (le_amount_ofUnits n hd (by exact_mod_cast hy))

theorem value_le (h : Rounds q x) (hy : q ≤ y.value) : x.value ≤ y.value := by
  obtain ⟨n, num, den, hd, rfl, rfl⟩ := h
  have hden : (0 : ℚ) < den := Nat.cast_pos.mpr hd
  rw [value, div_le_div_iff₀ (mul_pos hden one_pos_rat) one_pos_rat, ← mul_assoc,
    mul_le_mul_iff_of_pos_right one_pos_rat] at hy
  exact value_le_iff.mpr (amount_ofUnits_le n hd (by exact_mod_cast hy))

end Rounds

/-- A bound that is far from both ends of the range. -/
structure Moderate (B : ℚ) : Prop where
  low : 1 / 2 ^ 200 ≤ B
  high : B ≤ 2 ^ 200

theorem Moderate.normal {B : ℚ} (h : Moderate B) : (double.binade : ℚ) ≤ B * double.one := by
  obtain ⟨k, hk⟩ : ∃ k, double.scale = double.precision - 1 + 200 + k := ⟨822, by decide⟩
  have hone : double.one = double.binade * 2 ^ 200 * 2 ^ k := by
    rw [double.one_eq_two_pow, double.binade_eq, hk, Nat.pow_add, Nat.pow_add]
  have hb : (0 : ℚ) < double.binade := Nat.cast_pos.mpr double.binade_pos
  have hlow : (1 : ℚ) ≤ B * 2 ^ 200 := (div_le_iff₀ (by positivity)).mp h.low
  have hm : (1 : ℚ) ≤ 2 ^ k := one_le_pow₀ one_le_two
  rw [hone]
  push_cast
  calc (double.binade : ℚ) = double.binade * (1 * 1) := by ring
    _ ≤ double.binade * (B * 2 ^ 200 * 2 ^ k) :=
      mul_le_mul_of_nonneg_left (mul_le_mul hlow hm zero_le_one (by linarith)) hb.le
    _ = B * (double.binade * 2 ^ 200 * 2 ^ k) := by ring

namespace Rounds

theorem isFinite {B : ℚ} (h : Rounds q x) (hq : |q| ≤ B) (hB : B ≤ 2 ^ 200) :
    x.isFinite = true := by
  obtain ⟨n, num, den, hd, rfl, rfl⟩ := h
  have hden : (0 : ℚ) < den * double.one := mul_pos (Nat.cast_pos.mpr hd) one_pos_rat
  rw [isFinite_iff_rank (isNaN_ofUnits _ _ _), rank_ofUnits _ _ hd]
  refine lt_of_le_of_lt (double.nearest_le hd (le_of_lt (FloatFormat.power_lt_top ?_)) ?_)
    (FloatFormat.power_lt_top (show 200 ≤ 1023 by decide))
  · decide
  · rw [FloatFormat.units_power]
    rw [abs_div, abs_of_pos hden, div_le_iff₀ hden] at hq
    have hnum : (|num| : ℚ) ≤ 2 ^ 200 * (den * double.one) :=
      hq.trans (mul_le_mul_of_nonneg_right hB hden.le)
    have hnat : |num| ≤ ((2 ^ 200 * double.one * den : Nat) : Int) := by
      push_cast
      rw [mul_assoc, mul_comm (double.one : Int)]
      exact_mod_cast hnum
    rw [Int.abs_eq_natAbs] at hnat
    exact_mod_cast hnat

theorem deviation {num : Int} {den : Nat} (n : Bool) (hd : 0 < den)
    (hfin : (ofUnits n num den : Double).isFinite = true) :
    2 ^ 53 * |(ofUnits n num den : Double).amount * den - num|
      ≤ (Max.max num.natAbs (double.binade * den) : Nat) := by
  rw [isFinite_iff_rank (isNaN_ofUnits _ _ _), rank_ofUnits _ _ hd] at hfin
  obtain ⟨hup, hdown⟩ := double.nearest_deviation hd (le_max_left num.natAbs (double.binade * den))
    (le_max_right _ _) hfin
  rw [show double.precision = 53 from rfl] at hup hdown
  rw [amount_ofUnits n num hd]
  generalize double.nearest num.natAbs den = rank at *
  generalize Max.max num.natAbs (double.binade * den) = bound at *
  have hprod : (double.signedUnits (decide (num < 0)) rank * den : Int)
      = if num < 0 then -((double.units rank * den : Nat) : Int)
        else ((double.units rank * den : Nat) : Int) := by
    by_cases hneg : num < 0 <;> simp [FloatFormat.signedUnits, hneg]
  rw [hprod]
  generalize double.units rank * den = rounded at *
  rw [Int.abs_eq_natAbs]
  split <;> omega

theorem error {B : ℚ} (h : Rounds q x) (hq : |q| ≤ B) (hB : Moderate B) :
    x.isFinite = true ∧ |x.value - q| ≤ B / 2 ^ 53 := by
  have hfin := h.isFinite hq hB.high
  refine ⟨hfin, ?_⟩
  obtain ⟨n, num, den, hd, rfl, rfl⟩ := h
  have hden : (0 : ℚ) < den := Nat.cast_pos.mpr hd
  have hscale := mul_pos hden one_pos_rat
  have hunits : ((2 ^ 53 * |(ofUnits n num den : Double).amount * den - num| : Int) : ℚ)
      ≤ ((Max.max num.natAbs (double.binade * den) : Nat) : Int) :=
    Int.cast_le.mpr (deviation n hd hfin)
  rw [Int.cast_mul, Int.cast_pow, Int.cast_ofNat, Int.cast_natCast] at hunits
  have hbound :
      ((Max.max num.natAbs (double.binade * den) : Nat) : ℚ) ≤ B * (den * double.one) := by
    rw [abs_div, abs_of_pos hscale, div_le_iff₀ hscale, ← Int.cast_abs] at hq
    rw [Nat.cast_max, max_le_iff, Nat.cast_natAbs]
    refine ⟨hq, ?_⟩
    rw [Nat.cast_mul, mul_comm (den : ℚ), ← mul_assoc]
    exact mul_le_mul_of_nonneg_right hB.normal hden.le
  have hexact : (ofUnits n num den : Double).value - num / (den * double.one)
      = ((ofUnits n num den : Double).amount * den - num : Int) / (den * double.one) := by
    have hone := one_pos_rat
    rw [value]
    push_cast
    field_simp
  rw [hexact, abs_div, abs_of_pos hscale, div_le_div_iff₀ hscale (by positivity), ← Int.cast_abs]
  rw [mul_comm]
  exact hunits.trans hbound

end Rounds

theorem rounds_add (hx : x.isFinite = true) (hy : y.isFinite = true) :
    Rounds (x.value + y.value) (x + y) := by
  obtain ⟨n, hn⟩ := add_eq_ofUnits hx hy
  refine ⟨n, _, 1, Nat.one_pos, hn, ?_⟩
  rw [value, value, ← add_div, Nat.cast_one, one_mul, Int.cast_add]

theorem rounds_sub (hx : x.isFinite = true) (hy : y.isFinite = true) :
    Rounds (x.value - y.value) (x - y) := by
  rw [sub_eq_add_neg, ← value_neg]
  exact rounds_add hx ((isFinite_neg y).trans hy)

theorem rounds_mul (hx : x.isFinite = true) (hy : y.isFinite = true) :
    Rounds (x.value * y.value) (x * y) := by
  cases x with
  | nan => cases hx
  | number n a =>
    cases y with
    | nan => cases hy
    | number m b =>
      have hprod : number n a * number m b
          = ofUnits (n != m) (double.signedUnits n a.val * double.signedUnits m b.val)
            double.one := by
        rw [← atRank_val, ← atRank_val, mul_atRank (of_decide_eq_true hx) (of_decide_eq_true hy),
          atRank_nearest _ _ (one_pos double)]
        cases n <;> cases m <;> simp [FloatFormat.signedUnits]
      refine ⟨_, _, _, one_pos double, hprod, ?_⟩
      rw [value, value, div_mul_div_comm, Int.cast_mul]
      rfl

theorem rounds_mulAdd (hx : x.isFinite = true) (hy : y.isFinite = true) (hz : z.isFinite = true) :
    Rounds (x.value * y.value + z.value) (x.mulAdd y z) := by
  cases x with
  | nan => cases hx
  | number n a =>
    cases y with
    | nan => cases hy
    | number m b =>
      cases z with
      | nan => cases hz
      | number k c =>
        have hfused : (number n a).mulAdd (number m b) (number k c)
            = ofUnits ((n != m) && k) (double.signedUnits n a.val * double.signedUnits m b.val
              + double.signedUnits k c.val * double.one) double.one := by
          simp only [Binary.mulAdd, isFinite_number.mp hx, isFinite_number.mp hy,
            isFinite_number.mp hz, or_self, if_false]
        refine ⟨_, _, _, one_pos double, hfused, ?_⟩
        have hone := one_pos_rat
        rw [value, value, value, div_mul_div_comm,
          ← mul_div_mul_right ((number k c).amount : ℚ) _ hone.ne', ← add_div]
        push_cast
        rfl

theorem rounds_ofInt (n : Int) : Rounds n (ofInt n) := by
  have hscaled : (if decide (n < 0) then -((n.natAbs * double.one : Nat) : Int)
      else (n.natAbs * double.one : Nat)) = n * double.one := by
    by_cases hn : n < 0
    · rw [decide_eq_true hn, if_pos rfl, Nat.cast_mul, ← Int.neg_mul]
      congr 1
      omega
    · rw [decide_eq_false hn, if_neg Bool.false_ne_true, Nat.cast_mul]
      congr 1
      omega
  refine ⟨_, _, 1, Nat.one_pos, atRank_nearest _ _ Nat.one_pos, ?_⟩
  rw [hscaled, Int.cast_mul, Int.cast_natCast, Nat.cast_one, one_mul,
    mul_div_cancel_right₀ _ one_pos_rat.ne']

structure Bounded (B : ℚ) (x : Double) : Prop where
  finite : x.isFinite = true
  le : |x.value| ≤ B

theorem bounded_of_rank {r : Nat} (hx : x.isNaN = false) (h : x.rank ≤ r) (hr : r < double.top) :
    Bounded (double.units r / double.one) x := by
  refine ⟨(isFinite_iff_rank hx).mpr (lt_of_le_of_lt h hr), ?_⟩
  have hunits : x.amount.natAbs ≤ double.units r := by
    rw [natAbs_amount]
    exact double.units_strictMono.monotone h
  rw [value, abs_div, abs_of_pos one_pos_rat, ← Int.cast_abs, ← Nat.cast_natAbs]
  exact div_le_div_of_nonneg_right (by exact_mod_cast hunits) one_pos_rat.le

theorem Within.bounded {e : Nat} (h : Within e x) (he : e ≤ 1023) : Bounded (2 ^ e) x := by
  obtain ⟨hx, hr⟩ := within_iff.mp h
  have hb := bounded_of_rank hx hr (FloatFormat.power_lt_top he)
  rwa [FloatFormat.units_power, Nat.cast_mul, Nat.cast_pow, Nat.cast_ofNat,
    mul_div_cancel_right₀ _ one_pos_rat.ne'] at hb

theorem bounded_of_amount {x : Double} {n d : Nat} (hd : 0 < d) (hx : x.isFinite = true)
    (h : x.amount.natAbs * d ≤ n * double.one) : Bounded (n / d) x := by
  have hd' : (0 : ℚ) < d := Nat.cast_pos.mpr hd
  refine ⟨hx, ?_⟩
  rw [value, abs_div, abs_of_pos one_pos_rat, div_le_div_iff₀ one_pos_rat hd', ← Int.cast_abs,
    ← Nat.cast_natAbs]
  exact_mod_cast h

section Bounds

variable {a b c d B : ℚ}

theorem Rounds.bounded (h : Rounds q x) (hq : |q| ≤ B) (hB : Moderate B)
    (hc : B + B / 2 ^ 53 ≤ c) : Bounded c x := by
  obtain ⟨hfin, herror⟩ := h.error hq hB
  refine ⟨hfin, ?_⟩
  have htriangle := abs_sub_abs_le_abs_sub x.value q
  linarith

theorem Bounded.add (hx : Bounded a x) (hy : Bounded b y) (hm : Moderate (a + b))
    (hc : a + b + (a + b) / 2 ^ 53 ≤ c) : Bounded c (x + y) :=
  (rounds_add hx.finite hy.finite).bounded
    ((abs_add_le _ _).trans (add_le_add hx.le hy.le)) hm hc

theorem Bounded.mul (hx : Bounded a x) (hy : Bounded b y) (hm : Moderate (a * b))
    (hc : a * b + a * b / 2 ^ 53 ≤ c) : Bounded c (x * y) := by
  refine (rounds_mul hx.finite hy.finite).bounded ?_ hm hc
  rw [abs_mul]
  exact mul_le_mul hx.le hy.le (abs_nonneg _) ((abs_nonneg _).trans hx.le)

theorem Bounded.mulAdd (hx : Bounded a x) (hy : Bounded b y) (hz : Bounded c z)
    (hm : Moderate (a * b + c)) (hd : a * b + c + (a * b + c) / 2 ^ 53 ≤ d) :
    Bounded d (x.mulAdd y z) := by
  refine (rounds_mulAdd hx.finite hy.finite hz.finite).bounded ?_ hm hd
  refine (abs_add_le _ _).trans (add_le_add ?_ hz.le)
  rw [abs_mul]
  exact mul_le_mul hx.le hy.le (abs_nonneg _) ((abs_nonneg _).trans hx.le)

end Bounds

end Binary

end Federation
