import Federation.Proofs.Distances
import Federation.Proofs.Float.Rounding

/-!
# Numbers within a power of two

A bound on the magnitude of a number of double precision is kept as an exponent. Sums and products
have bounds that are computed from those of their operands, so a chain of operations with a bound
below the largest power gives a finite number, whatever the operands are.
-/

set_option autoImplicit false

namespace Federation

open FloatFormat (double)

namespace FloatFormat

variable {e : Nat}

theorem power_eq (e : Nat) : double.power e = (e + 1023) * double.binade := by
  have hbias : 1 <<< (double.exponentBits - 1) = 1024 := by decide
  rw [power, hbias]
  rfl

theorem power_mono {d e : Nat} (h : d ≤ e) : double.power d ≤ double.power e := by
  rw [power_eq, power_eq]
  exact Nat.mul_le_mul_right _ (by omega)

theorem power_lt_top (h : e ≤ 1023) : double.power e < double.top := by
  have ht : double.top = 2047 * double.binade := by decide
  rw [power_eq, ht]
  exact Nat.mul_lt_mul_of_pos_right (by omega) double.binade_pos

theorem units_power (e : Nat) : double.units (double.power e) = 2 ^ e * double.one := by
  obtain ⟨k, hk, hone⟩ : ∃ k, k = 1022 ∧ double.one = double.binade * 2 ^ k :=
    ⟨1022, rfl, by rw [double.one_eq_two_pow, double.binade_eq, ← Nat.pow_add,
      show double.scale = double.precision - 1 + 1022 by decide]⟩
  have hq : double.power e = (e + k) * double.binade + double.binade := by
    rw [power_eq, hk]
    ring
  have hb := double.binade_pos
  rw [hq, double.units_eq (by omega) (Or.inr le_rfl), hone, Nat.pow_add]
  ring

def bit (k : Nat) : Nat := double.rankBelow (2 ^ k)

theorem units_bit (k : Nat) : double.units (bit k) = 2 ^ k := by
  have h : double.units (double.rankBelow (1 * 2 ^ k)) = 1 * 2 ^ k :=
    double.units_rankBelow (by decide)
  rwa [Nat.one_mul] at h

theorem bit_le_top {k : Nat} (h : k ≤ double.scale) : bit k ≤ double.top := by
  have hone : double.units (bit k) ≤ double.units (double.power 0) := by
    rw [units_bit, units_power, Nat.pow_zero, Nat.one_mul, double.one_eq_two_pow]
    exact Nat.pow_le_pow_right Nat.two_pos h
  exact le_trans (double.units_strictMono.le_iff_le.mp hone) (le_of_lt (power_lt_top (by omega)))

theorem step_power (e : Nat) : double.step (double.power e) = e + 1022 := by
  have hq : double.power e = (e + 1022) * double.binade + double.binade := by
    rw [power_eq]
    ring
  have hb := double.binade_pos
  rw [hq, double.step_eq (by omega) (Or.inr le_rfl)]

/-- To a power of two a much smaller one cannot be added: it is less than half a step. -/
theorem plus_power_stall {a b : Nat} (hb : b + 54 ≤ a) (ha : a ≤ 1023) :
    double.plus (double.power a) (double.power b) ≤ double.power a := by
  have hhalf : 2 * double.units (double.power b) < 2 ^ double.step (double.power a) := by
    rw [units_power, step_power, double.one_eq_two_pow, ← Nat.pow_add, ← Nat.pow_succ',
      show double.scale = 1074 by decide]
    exact Nat.pow_lt_pow_right (by decide) (by omega)
  have hborder : double.border (double.power a + 1)
      = 2 * double.units (double.power a) + 2 ^ double.step (double.power a) := by
    rw [border_succ, units_succ]
    omega
  rw [← Nat.lt_succ_iff, ← Nat.not_le, plus,
    double.le_nearest_iff Nat.one_pos (Nat.succ_pos _) (power_lt_top ha), hborder]
  omega

end FloatFormat

namespace Binary

open FloatFormat

variable {x y : Double} {a b e : Nat}

theorem HasRank.isFinite_of_le {r : Nat} (hx : x.HasRank r) (h : r ≤ double.power e)
    (he : e ≤ 1023) : x.isFinite = true := by
  rw [hx.isFinite]
  exact decide_eq_true (lt_of_le_of_lt h (power_lt_top he))

/-- The magnitude is at most `2 ^ e`. -/
def Within (e : Nat) (x : Double) : Prop := ∃ r, x.abs.HasRank r ∧ r ≤ double.power e

theorem within_iff : Within e x ↔ x.isNaN = false ∧ x.rank ≤ double.power e := by
  cases x with
  | nan => simp [Within, abs, HasRank, position, isNaN]
  | number negative rank =>
    simp only [Within, abs_hasRank_iff, isNaN, Binary.rank, true_and]
    constructor
    · rintro ⟨r, ⟨_, _, ⟨rfl, rfl⟩, rfl⟩, hr⟩
      exact hr
    · intro h
      exact ⟨rank.val, ⟨negative, rank, rfl, rfl⟩, h⟩

instance (e : Nat) (x : Double) : Decidable (Within e x) := decidable_of_iff _ within_iff.symm

theorem Within.mono (h : Within a x) (hab : a ≤ b) : Within b x := by
  obtain ⟨r, hr, hle⟩ := h
  exact ⟨r, hr, le_trans hle (power_mono hab)⟩

theorem Within.isNaN (h : Within e x) : x.isNaN = false := (within_iff.mp h).1

theorem Within.isFinite (h : Within e x) (he : e ≤ 1023) : x.isFinite = true := by
  obtain ⟨r, hr, hle⟩ := h
  exact finite_iff_abs.mpr ⟨r, hr, lt_of_le_of_lt hle (power_lt_top he)⟩

theorem Within.units_le (h : Within e x) (he : e ≤ 1023) :
    ∃ negative rank, x = number negative rank ∧ rank.val < double.top ∧
      double.units rank.val ≤ 2 ^ e * double.one := by
  obtain ⟨r, hr, hle⟩ := h
  obtain ⟨negative, rank, rfl, rfl⟩ := abs_hasRank_iff.mp hr
  refine ⟨negative, rank, rfl, lt_of_le_of_lt hle (power_lt_top he), ?_⟩
  rw [← units_power]
  exact double.units_strictMono.monotone hle

theorem within_nearest {x : Double} {num den : Nat} (hd : 0 < den) (he : e ≤ 1023)
    (hx : x.abs = atRank false (double.nearest num den)) (h : num ≤ 2 ^ e * double.one * den) :
    Within e x := by
  refine ⟨double.nearest num den, ?_, double.nearest_le hd (le_of_lt (power_lt_top he)) ?_⟩
  · rw [hx]
    exact hasRank_atRank (double.nearest_le_top _ _)
  · rwa [units_power]

theorem Within.neg (h : Within e x) : Within e (-x) := by
  cases x with
  | nan => exact h
  | number negative rank => exact h

theorem Within.add (hx : Within a x) (hy : Within b y) (ha : a ≤ e) (hb : b ≤ e) (he : e < 1023) :
    Within (e + 1) (x + y) := by
  obtain ⟨n, r, rfl, hr, hxr⟩ := (hx.mono ha).units_le (by omega)
  obtain ⟨m, s, rfl, hs, hys⟩ := (hy.mono hb).units_le (by omega)
  have hsum := number_add (n := n) (m := m) (Nat.ne_of_lt hr) (Nat.ne_of_lt hs)
  refine within_nearest Nat.one_pos (by omega) (by rw [hsum, abs_ofUnits _ _ Nat.one_pos]) ?_
  have hn := natAbs_signedUnits double n r.val
  have hm := natAbs_signedUnits double m s.val
  have htwice : 2 ^ (e + 1) * double.one * 1 = 2 ^ e * double.one + 2 ^ e * double.one := by
    rw [Nat.pow_succ]
    ring
  rw [htwice]
  omega

theorem Within.sub (hx : Within a x) (hy : Within b y) (ha : a ≤ e) (hb : b ≤ e) (he : e < 1023) :
    Within (e + 1) (x - y) := hx.add hy.neg ha hb he

theorem Within.mul (hx : Within a x) (hy : Within b y) (he : a + b ≤ 1023) :
    Within (a + b) (x * y) := by
  obtain ⟨n, r, rfl, hr, hxr⟩ := hx.units_le (by omega)
  obtain ⟨m, s, rfl, hs, hys⟩ := hy.units_le (by omega)
  have hprod : number n r * number m s
      = atRank (n != m) (double.nearest (double.units r.val * double.units s.val) double.one) := by
    rw [← atRank_val, ← atRank_val, mul_atRank hr hs]
  refine within_nearest (one_pos _) he (by rw [hprod]; rfl) ?_
  calc double.units r.val * double.units s.val
      ≤ 2 ^ a * double.one * (2 ^ b * double.one) := Nat.mul_le_mul hxr hys
    _ = 2 ^ (a + b) * double.one * double.one := by
      rw [Nat.pow_add]
      ring

end Binary

end Federation
