import Federation.Proofs.Float.Bounds
import Federation.Proofs.Float.Rounding

/-!
# Quotients

The magnitude of a quotient is the rounded quotient of the magnitudes. Twice a number is a point of
the grid, so the middle of two numbers, which is half their rounded sum, lies between them as long
as the sum is finite.
-/

set_option autoImplicit false

namespace Federation

namespace FloatFormat

variable (f : FloatFormat) {r s : Nat}

theorem exists_units_double (r : Nat) : ∃ twice, f.units twice = 2 * f.units r := by
  obtain ⟨hl, hu, -⟩ := f.step_spec r
  have hq : r - f.step r * f.binade < 2 ^ f.precision := by
    rw [← two_mul_binade]
    omega
  have hexact : f.units (f.rankBelow ((r - f.step r * f.binade) * 2 ^ (f.step r + 1)))
      = (r - f.step r * f.binade) * 2 ^ (f.step r + 1) := f.units_rankBelow hq
  refine ⟨_, hexact.trans ?_⟩
  rw [units, Nat.shiftLeft_eq, Nat.pow_succ]
  ring

theorem units_plus (h : r ≤ s) (ht : f.plus r s < f.top) :
    2 * f.units r ≤ f.units (f.plus r s) ∧ f.units (f.plus r s) ≤ 2 * f.units s := by
  have hmono := f.units_strictMono.monotone h
  constructor
  · obtain ⟨twice, hd⟩ := f.exists_units_double r
    have hle : min twice f.top ≤ f.plus r s := by
      apply f.le_nearest Nat.one_pos (Nat.min_le_right _ _)
      have hmin := f.units_strictMono.monotone (Nat.min_le_left twice f.top)
      omega
    rw [← hd]
    exact f.units_strictMono.monotone (by omega)
  · obtain ⟨twice, hd⟩ := f.exists_units_double s
    rw [← hd]
    apply f.units_strictMono.monotone
    by_cases htop : twice ≤ f.top
    · exact f.nearest_le Nat.one_pos htop (by omega)
    · omega

end FloatFormat

namespace Binary

open FloatFormat

variable {f : FloatFormat} {x y : Binary f} {r s : Nat}

theorem HasRank.abs (hx : x.HasRank r) : x.abs.HasRank r := by
  obtain ⟨n, a, rfl, rfl, -⟩ := hasRank_iff.mp hx
  exact abs_hasRank_iff.mpr ⟨n, a, rfl, rfl⟩

theorem abs_sub_self (hx : x.isFinite = true) : (x - x).abs.HasRank 0 := by
  cases x with
  | nan => cases hx
  | number n a =>
    have ha := isFinite_number.mp hx
    rw [number_sub ha ha, Int.sub_self]
    exact abs_hasRank_iff.mpr ⟨_, _, rfl, Nat.zero_min _⟩

theorem abs_div_hasRank (hx : x.abs.HasRank r) (hr : r < f.top) (hy : y.HasRank s) (hs : 0 < s)
    (ht : s < f.top) : (x / y).abs.HasRank (f.nearest (f.units r * f.one) (f.units s)) := by
  obtain ⟨n, a, rfl, rfl⟩ := abs_hasRank_iff.mp hx
  obtain ⟨m, b, rfl, rfl, -⟩ := hasRank_iff.mp hy
  rw [← atRank_val, ← atRank_val, div_atRank hr ht hs]
  exact abs_hasRank_iff.mpr ⟨_, _, rfl, Nat.min_eq_left (f.nearest_le_top _ _)⟩

theorem HasRank.div (hx : x.HasRank r) (hr : r < f.top) (hy : y.HasRank s) (hs : 0 < s)
    (ht : s < f.top) : (x / y).HasRank (f.nearest (f.units r * f.one) (f.units s)) := by
  obtain ⟨n, a, rfl, rfl, hn⟩ := hasRank_iff.mp hx
  obtain ⟨m, b, rfl, rfl, hm⟩ := hasRank_iff.mp hy
  have hsign : m = false := by
    cases m with
    | false => rfl
    | true => exact absurd (hm rfl) (Nat.ne_of_gt hs)
  rw [← atRank_val, ← atRank_val, div_atRank hr ht hs, hsign]
  refine hasRank_iff.mpr ⟨_, _, rfl, Nat.min_eq_left (f.nearest_le_top _ _), fun h => ?_⟩
  have hz : a.val = 0 := hn (by simpa using h)
  rw [hz, f.units_zero, Nat.zero_mul]
  exact f.nearest_zero (f.units_pos hs)

theorem pos_of_one_le (h : f.one ≤ f.units s) : 0 < s := by
  have hone := one_pos f
  apply Nat.pos_of_ne_zero
  rintro rfl
  rw [f.units_zero] at h
  omega

theorem HasRank.div_le (hx : x.HasRank r) (hr : r < f.top) (hy : y.HasRank s)
    (hs : f.one ≤ f.units s) : ∃ q, (x / y).HasRank q ∧ q ≤ r := by
  have hpos := pos_of_one_le hs
  rcases Nat.lt_or_eq_of_le hy.le_top with ht | rfl
  · refine ⟨_, hx.div hr hy hpos ht, f.nearest_le (f.units_pos hpos) (Nat.le_of_lt hr) ?_⟩
    exact Nat.mul_le_mul_left _ hs
  · obtain ⟨n, a, rfl, rfl, -⟩ := hasRank_iff.mp hx
    obtain ⟨m, b, rfl, hb, -⟩ := hasRank_iff.mp hy
    rw [← atRank_val, ← atRank_val, hb, div_of_top hr]
    exact ⟨0, hasRank_vanishing _, Nat.zero_le _⟩

theorem two_pow_hasRank {e : Nat} (he : e ≤ 1023) :
    (Scalar.ofNat (2 ^ e) : Double).HasRank (double.power e) := by
  have hrank : double.nearest (2 ^ e * double.one) 1 = double.power e := by
    have h := double.nearest_units Nat.one_pos (Nat.le_of_lt (power_lt_top he))
    rwa [units_power, Nat.mul_one] at h
  rw [← hrank]
  exact hasRank_atRank (double.nearest_le_top _ _)

theorem one_hasRank : (Scalar.one : Double).HasRank (double.power 0) := by
  have h := two_pow_hasRank (Nat.zero_le 1023)
  rwa [Nat.pow_zero] at h

theorem two_hasRank : (Scalar.ofNat 2 : Double).HasRank (double.power 1) := by
  have h := two_pow_hasRank (show 1 ≤ 1023 by decide)
  rwa [Nat.pow_one] at h

theorem plus_power {e : Nat} (he : e ≤ 1022) :
    double.plus (double.power e) (double.power e) = double.power (e + 1) := by
  have h := double.nearest_units Nat.one_pos
    (Nat.le_of_lt (power_lt_top (show e + 1 ≤ 1023 by omega)))
  rw [units_power] at h
  rw [plus, units_power, ← h]
  congr 1
  rw [Nat.pow_succ]
  ring

theorem HasRank.middle {x y : Double} {e : Nat} (hx : x.HasRank r) (hy : y.HasRank s)
    (h : r ≤ s) (hs : s ≤ double.power e) (he : e ≤ 1022) :
    ∃ q, ((x + y) / Scalar.ofNat 2).HasRank q ∧ r ≤ q ∧ q ≤ s := by
  have ht : double.plus r s < double.top := by
    refine lt_of_le_of_lt ?_ (power_lt_top (show e + 1 ≤ 1023 by omega))
    rw [← plus_power he]
    exact double.plus_mono (le_trans h hs) hs
  have hst : s ≤ double.top := hy.le_top
  obtain ⟨hlow, hhigh⟩ := double.units_plus h ht
  have htwo : double.units (double.power 1) = 2 * double.one := units_power 1
  have hd : 0 < double.units (double.power 1) := by
    rw [htwo]
    exact Nat.mul_pos Nat.two_pos (one_pos _)
  refine ⟨_, (hx.add hy).div ht two_hasRank (by decide) (power_lt_top (by decide)), ?_, ?_⟩
  · apply double.le_nearest hd (le_trans h hst)
    rw [htwo, ← Nat.mul_assoc]
    exact Nat.mul_le_mul_right _ (by omega)
  · apply double.nearest_le hd hst
    rw [htwo, ← Nat.mul_assoc]
    exact Nat.mul_le_mul_right _ (by omega)

end Binary

end Federation
