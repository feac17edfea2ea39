import Federation.Proofs.Float.Amounts

/-!
# Accumulated sums

To a number within a power of two any number of much smaller ones can be added: what would take the
sum past the power is rounded away. Copies of one number with few bits are added up exactly, and
their mean is that number.
-/

set_option autoImplicit false

namespace Federation

namespace FloatFormat

theorem units_count {n : Nat} (hn : n < 2 ^ 53) :
    double.nearest (n * double.one) 1 < double.top ∧
      double.units (double.nearest (n * double.one) 1) = n * double.one := by
  have htop : double.nearest (n * double.one) 1 < double.top := by
    refine lt_of_le_of_lt (double.nearest_le Nat.one_pos
      (le_of_lt (power_lt_top (show 53 ≤ 1023 by decide))) ?_) (power_lt_top (by decide))
    rw [units_power, Nat.mul_one]
    exact Nat.mul_le_mul_right _ (le_of_lt hn)
  refine ⟨htop, ?_⟩
  have hscaled : n * double.one = n * 2 ^ double.scale * 1 := by
    rw [Nat.mul_one, double.one_eq_two_pow]
  rw [hscaled] at htop ⊢
  exact (double.units_nearest_exact Nat.one_pos hn htop).trans (Nat.mul_one _).symm

section Bits

variable {c d e i j k q r s : Nat}

theorem two_pow_le_units (h : bit k ≤ r) : 2 ^ k ≤ double.units r := by
  rw [← units_bit]
  exact double.units_strictMono.monotone h

theorem pos_of_bit_le (h : bit k ≤ r) : 0 < r := by
  have hpos := Nat.lt_of_lt_of_le (Nat.two_pow_pos k) (two_pow_le_units h)
  apply Nat.pos_of_ne_zero
  rintro rfl
  rw [double.units_zero] at hpos
  exact Nat.lt_irrefl 0 hpos

theorem bit_le_nearest (h : 2 ^ k ≤ c) (hk : k ≤ double.scale) : bit k ≤ double.nearest c 1 := by
  apply double.le_nearest Nat.one_pos (bit_le_top hk)
  rwa [units_bit, Nat.mul_one]

theorem bit_le_product (hr : bit i ≤ r) (hs : bit j ≤ s) (hk : k + double.scale = i + j)
    (htop : k ≤ double.scale) :
    bit k ≤ double.nearest (double.units r * double.units s) double.one := by
  apply double.le_nearest (Binary.one_pos _) (bit_le_top htop)
  rw [units_bit, double.one_eq_two_pow, ← Nat.pow_add, hk, Nat.pow_add]
  exact Nat.mul_le_mul (two_pow_le_units hr) (two_pow_le_units hs)

theorem bit_le_root (hr : bit i ≤ r) (hk : k + k = i + double.scale) (htop : k ≤ double.scale) :
    bit k ≤ double.nearestRoot (double.units r * double.one) := by
  apply double.le_nearestRoot (bit_le_top htop)
  rw [units_bit, double.one_eq_two_pow, ← Nat.pow_add, hk, Nat.pow_add]
  exact Nat.mul_le_mul_right _ (two_pow_le_units hr)

theorem root_le_power (hr : r ≤ double.power (e + e)) (he : e ≤ 1023) :
    double.nearestRoot (double.units r * double.one) ≤ double.power e := by
  apply double.nearestRoot_le (le_of_lt (power_lt_top he))
  have hu := double.units_strictMono.monotone hr
  rw [units_power, Nat.pow_add] at hu
  rw [units_power]
  calc double.units r * double.one ≤ 2 ^ e * 2 ^ e * double.one * double.one :=
        Nat.mul_le_mul_right _ hu
    _ = 2 ^ e * double.one * (2 ^ e * double.one) := by ring

theorem quotient_le_power (hc : c ≤ double.power e) (hq : bit k ≤ q) (hd : e + double.scale = d + k)
    (he : d ≤ 1023) :
    double.nearest (double.units c * double.one) (double.units q) ≤ double.power d := by
  have hu := double.units_strictMono.monotone hc
  have hbit := two_pow_le_units hq
  rw [units_power] at hu
  refine double.nearest_le (Nat.lt_of_lt_of_le (Nat.two_pow_pos k) hbit)
    (le_of_lt (power_lt_top he)) ?_
  have hshift : 2 ^ e * double.one = 2 ^ d * 2 ^ k := by
    rw [double.one_eq_two_pow, ← Nat.pow_add, ← Nat.pow_add, hd]
  rw [units_power]
  calc double.units c * double.one ≤ 2 ^ d * 2 ^ k * double.one :=
        Nat.mul_le_mul_right _ (hshift ▸ hu)
    _ = 2 ^ d * double.one * 2 ^ k := by ring
    _ ≤ 2 ^ d * double.one * double.units q := Nat.mul_le_mul_left _ hbit

end Bits

end FloatFormat

namespace Binary

open FloatFormat

variable {x y : Double} {a b e n : Nat}

theorem Within.add_stall (hx : Within a x) (hy : Within b y) (hb : b + 54 ≤ a) (ha : a ≤ 1023) :
    Within a (x + y) := by
  obtain ⟨z, hz⟩ := add_eq_ofUnits (hx.isFinite ha) (hy.isFinite (by omega))
  have habsx := natAbs_amount x
  have habsy := natAbs_amount y
  rw [within_iff, hz, rank_ofUnits _ _ Nat.one_pos]
  refine ⟨isNaN_ofUnits _ _ _, ?_⟩
  calc double.nearest (x.amount + y.amount).natAbs 1
      ≤ double.plus x.rank y.rank := double.nearest_mono Nat.one_pos Nat.one_pos (by omega)
    _ ≤ double.plus (double.power a) (double.power b) :=
      double.plus_mono (within_iff.mp hx).2 (within_iff.mp hy).2
    _ ≤ double.power a := plus_power_stall hb ha

/-- However many numbers are added, the sum stays within a power of two that is large enough. -/
theorem Within.foldl {xs : List Double} (hx : Within a x) (h : ∀ y ∈ xs, Within b y)
    (hb : b + 54 ≤ a) (ha : a ≤ 1023) : Within a (xs.foldl (· + ·) x) := by
  induction xs generalizing x with
  | nil => exact hx
  | cons y xs ih =>
    exact ih (hx.add_stall (h y (by simp)) hb ha) fun z hz => h z (by simp [hz])

theorem within_vanishing (e : Nat) (negative : Bool) : Within e (atRank negative 0) :=
  ⟨0, abs_hasRank_iff.mpr ⟨_, _, rfl, Nat.zero_min _⟩, Nat.zero_le _⟩

theorem HasRank.lt_top {r : Nat} (hx : x.HasRank r) (h : Within e x) (he : e ≤ 1023) :
    r < double.top := by
  rw [← hx.rank_eq]
  exact (isFinite_iff_rank h.isNaN).mp (h.isFinite he)

theorem Within.div_le {s : Nat} (hx : Within e x) (he : e ≤ 1023) (hy : y.HasRank s)
    (hone : double.one ≤ double.units s) : Within e (x / y) := by
  obtain ⟨r, hr, hle⟩ := hx
  have hpos := pos_of_one_le hone
  have hrt := lt_of_le_of_lt hle (power_lt_top he)
  rcases Nat.lt_or_eq_of_le hy.le_top with ht | rfl
  · refine ⟨_, abs_div_hasRank hr hrt hy hpos ht, le_trans ?_ hle⟩
    exact double.nearest_le (double.units_pos hpos) (le_of_lt hrt) (Nat.mul_le_mul_left _ hone)
  · obtain ⟨n, c, rfl, rfl⟩ := abs_hasRank_iff.mp hr
    rw [hy.eq_atRank hpos, ← atRank_val, div_of_top hrt]
    exact within_vanishing e _

theorem amount_ofUnits_exact {f : FloatFormat} {num : Int} {q shift : Nat} (zeroNegative : Bool)
    (hq : q < 2 ^ f.precision) (hnum : num.natAbs = q * 2 ^ shift)
    (hfin : (ofUnits zeroNegative num 1 : Binary f).isFinite = true) :
    (ofUnits zeroNegative num 1 : Binary f).amount = num := by
  rw [isFinite_iff_rank (isNaN_ofUnits _ _ _), rank_ofUnits _ _ Nat.one_pos] at hfin
  have hscaled : num.natAbs = q * 2 ^ shift * 1 := by rw [hnum, Nat.mul_one]
  have hexact : f.units (f.nearest num.natAbs 1) = num.natAbs := by
    rw [hscaled] at hfin ⊢
    exact (f.units_nearest_exact Nat.one_pos hq hfin).trans (Nat.mul_one _).symm
  rw [amount_ofUnits _ _ Nat.one_pos, FloatFormat.signedUnits, hexact]
  by_cases hneg : num < 0
  · rw [decide_eq_true hneg, if_pos rfl]
    omega
  · rw [decide_eq_false hneg, if_neg Bool.false_ne_true]
    omega

theorem amount_foldl {xs : List Double} {m : Int} {k q shift : Nat} (hx : Within a x)
    (hstart : x.amount = k * m) (h : ∀ y ∈ xs, Within b y ∧ y.amount = m)
    (hm : m.natAbs = q * 2 ^ shift) (hq : (k + xs.length) * q < 2 ^ 53) (hb : b + 54 ≤ a)
    (ha : a ≤ 1023) : (xs.foldl (· + ·) x).amount = (k + xs.length : Nat) * m := by
  induction xs generalizing x k with
  | nil => exact hstart
  | cons y xs ih =>
    obtain ⟨hy, hamount⟩ := h y (by simp)
    have hsum := hx.add_stall hy hb ha
    rw [List.length_cons] at hq
    have hnext : x.amount + y.amount = (k + 1 : Nat) * m := by
      rw [hstart, hamount]
      push_cast
      ring
    have hstep : (x + y).amount = (k + 1 : Nat) * m := by
      obtain ⟨z, hz⟩ := add_eq_ofUnits (hx.isFinite ha) (hy.isFinite (by omega))
      rw [hnext] at hz
      have hbits : ((k + 1 : Nat) * m).natAbs = (k + 1) * q * 2 ^ shift := by
        rw [Int.natAbs_mul, Int.natAbs_natCast, hm, Nat.mul_assoc]
      have hlt : (k + 1) * q < 2 ^ double.precision :=
        lt_of_le_of_lt (Nat.mul_le_mul_right q (by omega)) hq
      rw [hz]
      exact amount_ofUnits_exact z hlt hbits (hz ▸ hsum.isFinite ha)
    rw [List.foldl_cons, ih hsum hstep (fun w hw => h w (by simp [hw])) (by
      rwa [Nat.add_assoc, Nat.add_comm 1]), List.length_cons, Nat.add_assoc, Nat.add_comm 1]

theorem amount_mean (hx : x.isFinite = true) (hsum : x.amount = n * y.amount) (hpos : 0 < n)
    (hn : n < 2 ^ 53) : (x / Scalar.ofNat n).amount = y.amount := by
  obtain ⟨htop, hunits⟩ := units_count hn
  have hcount : (Scalar.ofNat n : Double).HasRank (double.nearest (n * double.one) 1) :=
    hasRank_atRank (double.nearest_le_top _ _)
  have hd : 0 < n * double.one := Nat.mul_pos hpos (one_pos _)
  have hrank : 0 < double.nearest (n * double.one) 1 := by
    apply Nat.pos_of_ne_zero
    intro hz
    rw [hz, double.units_zero] at hunits
    omega
  obtain ⟨z, hz⟩ := div_eq_ofUnits hx hcount hrank htop
  have hnum : x.amount * double.one = y.amount * (n * double.one : Nat) := by
    rw [hsum]
    push_cast
    ring
  rw [hz, hunits]
  exact le_antisymm (amount_ofUnits_le z hd (le_of_eq hnum))
    (le_amount_ofUnits z hd (le_of_eq hnum.symm))

end Binary

end Federation
