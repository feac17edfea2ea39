import Federation.Json.Number
import Federation.Proofs.Decimal.Gaps
import Federation.Proofs.Decimal.Shortest
import Federation.Proofs.Float.Magnitudes
import Federation.Proofs.Float.Narrowing

/-!
# What a significand and a power of ten are read as

A reader rounds the power of ten and then its product or quotient with the significand, so what it
reads is not always the number nearest to the decimal. But the two roundings are errors of double
precision: a decimal that is clearly to one side of a border of single precision is read to that
side of it, and a decimal that is the border is read as the border.
-/

set_option autoImplicit false

namespace Federation

open FloatFormat (double single halfway)
open Decimal (tens tens_eq halfStep leastPower closeCalls)

namespace Json.Number

variable {significand power rank k : Nat}

theorem one_eq : double.one = 2 ^ 1074 := by
  rw [double.one_eq_two_pow, show double.scale = 1074 by decide]

theorem one_pos : 0 < double.one := Binary.one_pos double

theorem tens_308_lt_top : double.rankBelow (tens 308 * double.one) < double.top ∧
    double.nearest (tens 308 * double.one) 1 < double.top := by
  decide +kernel

theorem two_pow_le_tens : 2 ^ 53 ≤ tens 308 :=
  le_trans (show 2 ^ 53 ≤ tens 16 by decide) (Decimal.tens_mono (by decide))

theorem nearest_whole (h : significand < 2 ^ 53) :
    double.nearest (significand * double.one) 1 < double.top ∧
      double.units (double.nearest (significand * double.one) 1) = significand * double.one := by
  have hlt : double.rankBelow (significand * double.one) < double.top := by
    have hm : double.rankBelow (significand * double.one)
        ≤ double.rankBelow (tens 308 * double.one) :=
      double.rankBelow_mono (Nat.mul_le_mul_right _ (le_trans (le_of_lt h) two_pow_le_tens))
    exact lt_of_le_of_lt hm tens_308_lt_top.1
  rw [one_eq] at hlt ⊢
  have he : double.nearest (significand * 2 ^ 1074 * 1) 1 = _ :=
    double.nearest_exact Nat.one_pos h (le_of_lt hlt)
  rw [Nat.mul_one] at he
  rw [he]
  exact ⟨hlt, double.units_rankBelow h⟩

def factor (k : Nat) : Nat := double.units (double.nearest (tens k * double.one) 1)

theorem nearest_tens_lt_top (hk : k ≤ 308) :
    double.nearest (tens k * double.one) 1 < double.top := by
  have hm : double.nearest (tens k * double.one) 1 ≤ double.nearest (tens 308 * double.one) 1 :=
    double.nearest_mono Nat.one_pos Nat.one_pos (Nat.mul_le_mul_right _
      (Nat.mul_le_mul_right _ (Decimal.tens_mono hk)))
  exact lt_of_le_of_lt hm tens_308_lt_top.2

theorem factor_error (hk : k ≤ 308) :
    (2 ^ 53 - 1) * (tens k * double.one) ≤ 2 ^ 53 * factor k ∧
      2 ^ 53 * factor k ≤ (2 ^ 53 + 1) * (tens k * double.one) := by
  have hbig : double.binade * 1 ≤ tens k * double.one := by
    have hb : double.binade ≤ double.one := by decide
    have ht := Decimal.tens_pos k
    exact le_trans (by omega) (Nat.le_mul_of_pos_left _ ht)
  have h := double.nearest_error Nat.one_pos hbig (nearest_tens_lt_top hk)
  rwa [Nat.mul_one] at h

theorem factor_pos (hk : k ≤ 308) : 0 < factor k := by
  have ht := Decimal.tens_pos k
  have hp := Nat.mul_pos ht one_pos
  have he := (factor_error hk).1
  omega

theorem factor_eq (hk : k ≤ 22) : factor k = tens k * double.one := by
  have he : tens k * double.one = 5 ^ k * 2 ^ (k + 1074) := by
    rw [tens_eq, one_eq, Nat.pow_add, ← Nat.mul_assoc, ← Nat.mul_pow]
  have hlt : 5 ^ k < 2 ^ 53 :=
    lt_of_le_of_lt (Nat.pow_le_pow_right (by decide) hk) (by decide)
  have hle : double.rankBelow (5 ^ k * 2 ^ (k + 1074)) ≤ double.top := by
    have hm : double.rankBelow (tens k * double.one) ≤ double.rankBelow (tens 308 * double.one) :=
      double.rankBelow_mono (Nat.mul_le_mul_right _ (Decimal.tens_mono (by omega)))
    rw [← he]
    exact le_trans hm (le_of_lt tens_308_lt_top.1)
  have hn := double.nearest_exact Nat.one_pos hlt hle
  rw [Nat.mul_one] at hn
  rw [factor, he, hn, double.units_rankBelow hlt]

def quotient (significand : Nat) (exponent : Int) : Nat × Nat :=
  if 0 ≤ exponent then (significand * double.one * factor exponent.toNat, double.one)
  else (significand * double.one * double.one, factor (-exponent).toNat)

def readRank (significand : Nat) (exponent : Int) : Nat :=
  double.nearest (quotient significand exponent).1 (quotient significand exponent).2

theorem quotient_pos {exponent : Int} (h : -308 ≤ exponent) :
    0 < (quotient significand exponent).2 := by
  unfold quotient
  split
  · exact one_pos
  · exact factor_pos (by omega)

theorem scale?_eq {exponent : Int} (hs : significand < 2 ^ 53) (hlow : -308 ≤ exponent)
    (hhigh : exponent ≤ 308) (hf : readRank significand exponent < double.top) :
    scale? significand exponent = some (.atRank false (readRank significand exponent)) := by
  obtain ⟨hlt, hu⟩ := nearest_whole hs
  unfold readRank quotient at hf ⊢
  unfold scale?
  rw [if_neg (by omega)]
  by_cases he : 0 ≤ exponent
  · rw [if_pos he] at hf ⊢
    have hm : (Binary.ofNat significand * powerOfTen exponent.toNat : Double)
        = .atRank false (double.nearest
          (significand * double.one * factor exponent.toNat) double.one) := by
      rw [← hu]
      exact Binary.mul_atRank hlt (nearest_tens_lt_top (by omega))
    simp only [if_pos he, hm, Binary.isFinite_atRank hf, if_true]
  · rw [if_neg he] at hf ⊢
    have hk : (-exponent).toNat ≤ 308 := by omega
    have hpos : 0 < double.nearest (tens (-exponent).toNat * double.one) 1 := by
      apply Nat.pos_of_ne_zero
      intro hz
      have hp := factor_pos hk
      rw [factor, hz, double.units_zero] at hp
      omega
    have hd : (Binary.ofNat significand / powerOfTen (-exponent).toNat : Double)
        = .atRank false (double.nearest
          (significand * double.one * double.one) (factor (-exponent).toNat)) := by
      rw [← hu]
      exact Binary.div_atRank hlt (nearest_tens_lt_top hk) hpos
    simp only [if_neg he, if_pos hlow, hd]

theorem scaled?_of_scale? {n : Number} {wide : Nat}
    (h : scale? n.scaling.1 n.scaling.2 = some (.atRank false wide)) :
    n.scaled? = some (.atRank n.negative wide) := by
  simp only [scaled?, h, Option.map_some]
  cases n.negative <;> rfl

/-- A quotient is as close to a decimal as one rounding of the power of ten leaves it. The decimal
is given in units of `10 ^ (-150)`, and both are over the power of five in it. -/
structure Near (num den exact : Nat) : Prop where
  le : (2 ^ 53 - 1) * (num * 5 ^ 150) ≤ 2 ^ 53 * (exact * 2 ^ 924 * den)
  ge : (2 ^ 53 - 1) * (exact * 2 ^ 924 * den) ≤ 2 ^ 53 * (num * 5 ^ 150)

theorem tens_split (h : k ≤ power) : tens power = tens (power - k) * tens k := by
  rw [← Decimal.tens_add, Nat.sub_add_cancel h]

theorem tens_150 : tens 150 * 2 ^ 924 = double.one * 5 ^ 150 := by
  rw [tens_eq, one_eq, show (10 : Nat) = 2 * 5 from rfl, Nat.mul_pow,
    show 1074 = 150 + 924 from rfl, Nat.pow_add, Nat.mul_right_comm]

theorem quotient_eq (significand power : Nat) :
    ∃ common k, (power ≤ 458 → k ≤ 308) ∧ (128 ≤ power → power ≤ 172 → k ≤ 22) ∧
      (((quotient significand (power - 150)).1 * 5 ^ 150 = common * factor k ∧
        significand * tens power * 2 ^ 924 * (quotient significand (power - 150)).2
          = common * (tens k * double.one)) ∨
      ((quotient significand (power - 150)).1 * 5 ^ 150 = common * (tens k * double.one) ∧
        significand * tens power * 2 ^ 924 * (quotient significand (power - 150)).2
          = common * factor k)) := by
  have h150 := tens_150
  unfold quotient
  generalize (5 : Nat) ^ 150 = fives at *
  generalize (2 : Nat) ^ 924 = twos at *
  generalize double.one = one at *
  by_cases hp : 150 ≤ power
  · refine ⟨significand * one * fives, power - 150, by omega, by omega, Or.inl ?_⟩
    have hk : ((power : Int) - 150).toNat = power - 150 := by omega
    have hs := tens_split hp
    rw [if_pos (by omega), hk, hs]
    generalize tens 150 = t at *
    refine ⟨Nat.mul_right_comm _ _ _, ?_⟩
    calc significand * (tens (power - 150) * t) * twos * one
        = significand * tens (power - 150) * (t * twos) * one := by ring
      _ = significand * one * fives * (tens (power - 150) * one) := by
        rw [h150]
        ring
  · refine ⟨significand * tens power * twos, 150 - power, by omega, by omega, Or.inr ?_⟩
    have hk : (-((power : Int) - 150)).toNat = 150 - power := by omega
    have hs := tens_split (show power ≤ 150 by omega)
    rw [if_neg (by omega), hk]
    generalize tens 150 = t at *
    refine ⟨?_, rfl⟩
    calc significand * one * one * fives
        = significand * one * (one * fives) := by ring
      _ = significand * tens power * twos * (tens (150 - power) * one) := by
        rw [← h150, hs]
        ring

theorem near_quotient (significand : Nat) (hp : power ≤ 458) :
    Near (quotient significand (power - 150)).1 (quotient significand (power - 150)).2
      (significand * tens power) := by
  obtain ⟨common, k, hk, -, ⟨hnum, hden⟩ | ⟨hnum, hden⟩⟩ := quotient_eq significand power
  all_goals
    obtain ⟨hlow, hhigh⟩ := factor_error (hk hp)
    have hl := Nat.mul_le_mul_left common hlow
    have hh := Nat.mul_le_mul_left common hhigh
    rw [Nat.mul_left_comm common (2 ^ 53 - 1), Nat.mul_left_comm common (2 ^ 53)] at hl
    rw [Nat.mul_left_comm common (2 ^ 53), Nat.mul_left_comm common (2 ^ 53 + 1)] at hh
    constructor <;> rw [hnum, hden] <;> omega

end Json.Number

end Federation
