import Federation.Proofs.Json.Rescaling
import Federation.Proofs.Json.Scaling

/-!
# Numbers of double precision read back

A number of double precision is read from its literal with one rounding only if the significand that
the reader gathers and the power of ten that it scales by are numbers of double precision
themselves. Then the literal, which lies between the borders of the number, is rounded to it. A
literal with more digits than that goes through two roundings and may end one number away.
-/

set_option autoImplicit false

namespace Federation

open FloatFormat (double)
open Decimal (tens)

/-- A quotient between the borders of a number is rounded to it. The interval of the number counts
in units of `10 ^ (-(scale + 1))`. -/
theorem FloatFormat.nearest_of_contains (f : FloatFormat) {rank num den n : Nat} (hd : 0 < den)
    (ht : rank < f.top) (hc : (Decimal.interval f rank).contains n = true)
    (hn : 2 * num * 5 ^ (f.scale + 1) = n * den) : f.nearest num den = rank := by
  obtain ⟨hlow, hhigh⟩ := Decimal.Interval.contains_iff.mp hc
  rw [Decimal.interval_low] at hlow
  rw [Decimal.interval_high] at hhigh
  have hclosed : (Decimal.interval f rank).closed = true → rank % 2 = 0 := beq_iff_eq.mp
  have hfives : 0 < 5 ^ (f.scale + 1) := Nat.pow_pos (by decide)
  generalize 5 ^ (f.scale + 1) = fives at *
  have hscale : ∀ border, border * den * fives = border * fives * den := fun border =>
    Nat.mul_right_comm _ _ _
  apply f.nearest_eq hd ht
  · rcases hlow with hlt | ⟨heq, hcl⟩
    · left
      apply Nat.lt_of_mul_lt_mul_right (a := fives)
      rw [hscale, hn]
      exact Nat.mul_lt_mul_of_pos_right hlt hd
    · refine Or.inr ⟨Nat.eq_of_mul_eq_mul_right hfives ?_, hclosed hcl⟩
      rw [hscale, hn, heq]
  · rcases hhigh with hlt | ⟨heq, hcl⟩
    · left
      apply Nat.lt_of_mul_lt_mul_right (a := fives)
      rw [hscale, hn]
      exact Nat.mul_lt_mul_of_pos_right hlt hd
    · refine Or.inr ⟨Nat.eq_of_mul_eq_mul_right hfives ?_, hclosed hcl⟩
      rw [hscale, hn, heq]

namespace Json.Number

variable {significand rank n : Nat} {exponent : Int}

theorem tens_1075 : tens 1075 = 2 * double.one * 5 ^ 1075 := by decide +kernel

theorem readRank_of_contains (hlow : -22 ≤ exponent) (hhigh : exponent ≤ 22)
    (ht : rank < double.top)
    (hc : (Decimal.interval double rank).contains
      (significand * tens (exponent + 1075).toNat) = true) :
    readRank significand exponent = rank := by
  have hden : 0 < (quotient significand exponent).2 := quotient_pos (by omega)
  have hscale : double.scale + 1 = 1075 := by decide
  have hlast := tens_1075
  apply double.nearest_of_contains hden ht hc
  rw [hscale]
  unfold quotient
  by_cases he : 0 ≤ exponent
  · have hsplit : tens (exponent + 1075).toNat = tens exponent.toNat * tens 1075 := by
      have hk : (exponent + 1075).toNat = exponent.toNat + 1075 := by omega
      rw [hk, Decimal.tens_add]
    rw [if_pos he, factor_eq (by omega), hsplit, hlast]
    generalize (5 : Nat) ^ 1075 = fives
    generalize double.one = one
    generalize tens exponent.toNat = power
    ring
  · have hsplit : tens 1075 = tens (exponent + 1075).toNat * tens (-exponent).toNat := by
      have hk : 1075 = (exponent + 1075).toNat + (-exponent).toNat := by omega
      rw [← Decimal.tens_add, ← hk]
    rw [hsplit] at hlast
    rw [if_neg he, factor_eq (by omega)]
    generalize (5 : Nat) ^ 1075 = fives at *
    generalize double.one = one at *
    generalize tens (exponent + 1075).toNat = rest at *
    generalize tens (-exponent).toNat = power at *
    calc 2 * (significand * one * one) * fives
        = significand * one * (2 * one * fives) := by ring
      _ = significand * rest * (power * one) := by
        rw [← hlast]
        ring

/-- The reader gathers a significand and scales by a power of ten that are both exact. -/
def IsShort (n : Number) : Prop :=
  n.scaling.1 < 2 ^ 53 ∧ -22 ≤ n.scaling.2 ∧ n.scaling.2 ≤ 22

instance (n : Number) : Decidable n.IsShort :=
  inferInstanceAs (Decidable (n.scaling.1 < 2 ^ 53 ∧ -22 ≤ n.scaling.2 ∧ n.scaling.2 ≤ 22))

theorem contains_scaling (negative : Bool) {window : Window} (hw : window.last ≤ 17)
    (hs : (Decimal.shortest double .toEven rank).significand < Count.bound)
    (hlow : -22 ≤ (ofDecimal window negative (Decimal.shortest double .toEven rank)).scaling.2) :
    (Decimal.interval double rank).contains
      ((ofDecimal window negative (Decimal.shortest double .toEven rank)).scaling.1 * tens
        ((ofDecimal window negative (Decimal.shortest double .toEven rank)).scaling.2
          + 1075).toNat) = true := by
  have hcases := scaling_ofDecimal negative hw hs
  rcases Nat.eq_zero_or_pos rank with rfl | hpos
  · have hzero : (Decimal.interval double 0).contains 0 = true := by decide +kernel
    have hsig : (Decimal.shortest double .toEven 0).significand = 0 := rfl
    rcases hcases with hsc | ⟨-, -, hsc⟩
    · rw [hsc, hsig, Nat.zero_mul]
      exact hzero
    · rw [hsc, hsig, Nat.zero_mul, Nat.mul_zero, Nat.zero_mul]
      exact hzero
  · obtain ⟨power, he, hshows, -⟩ := Decimal.shortest_spec double .toEven hpos
    have hscale : double.scale + 1 = 1075 := by decide
    have hc := hshows.contains
    generalize Decimal.shortest double .toEven rank = d at *
    have hexp : d.exponent = power - 1075 := by omega
    rcases hcases with hsc | ⟨hnonneg, -, hsc⟩
    · have hk : (d.exponent + 1075).toNat = power := by omega
      rw [hsc, hk]
      exact hc
    · have hk : power = d.exponent.toNat + 1 + 1074 := by omega
      rw [hsc, show ((-1 : Int) + 1075).toNat = 1074 from rfl]
      rw [hk, Decimal.tens_add, Decimal.tens_succ] at hc
      generalize tens 1074 = unit at *
      have hmove : d.significand * (10 * tens d.exponent.toNat * unit)
          = 10 * (d.significand * tens d.exponent.toNat) * unit := by ring
      rwa [hmove] at hc

theorem toDouble?_ofBinary? {x : Double} {n : Number} (hn : ofBinary? doubleWindow x = some n)
    (hs : n.IsShort) : n.toDouble? = some x := by
  obtain ⟨hsig, hlow, hhigh⟩ := hs
  cases x with
  | nan => cases hn
  | number negative rank =>
    have hne : rank.val ≠ double.top := fun hr => by simp [ofBinary?, hr] at hn
    have ht : rank.val < double.top := by
      have := rank.isLt
      omega
    rw [ofBinary?, if_neg hne] at hn
    obtain rfl := Option.some.inj hn
    have hbound : (Decimal.shortest double .toEven rank.val).significand < Count.bound :=
      lt_of_le_of_lt (Decimal.significand_le double .toEven rank.val) (by decide)
    have hlast : doubleWindow.last ≤ 17 := by decide
    have hread := readRank_of_contains hlow hhigh ht (contains_scaling negative hlast hbound hlow)
    have hscale := scale?_eq hsig (le_trans (by decide) hlow) (le_trans hhigh (by decide))
      (lt_of_eq_of_lt hread ht)
    rw [hread] at hscale
    simp only [toDouble?, word?_ofDecimal, scaled?_of_scale? hscale, negative_ofDecimal,
      Binary.atRank_val]

end Json.Number

end Federation
