import Federation.Proofs.Float.Order

/-!
# Overflow

Operations with an infinite operand or an infinite result. Numbers that can be doubled have finite
sums and differences.
-/

set_option autoImplicit false

namespace Federation

namespace Binary

open FloatFormat (double)

variable {f : FloatFormat} {x y z : Binary f} {r s : Nat}

theorem div_isNaN_iff (hx : x.isNaN = false) (hy : y.HasRank s) (hs : 0 < s) :
    (x / y).isNaN = true ↔ x.isFinite = false ∧ y.isFinite = false := by
  cases x with
  | nan => cases hx
  | number n a =>
    obtain ⟨m, b, rfl, rfl, -⟩ := hasRank_iff.mp hy
    rw [isFinite_number_eq_false, isFinite_number_eq_false]
    show (Binary.div (number n a) (number m b)).isNaN = true ↔ _
    unfold Binary.div
    by_cases ha : a.val = f.top <;> by_cases hb : b.val = f.top <;>
      simp [ha, hb, isNaN, infinity, atRank, Nat.ne_of_gt hs]

theorem infinity_div (n : Bool) (hy : y.HasRank s) (hs : 0 < s) (ht : s < f.top) :
    infinity n / y = infinity n := by
  rw [hy.eq_atRank hs]
  have htop := Nat.ne_of_lt ht
  show Binary.div _ _ = _
  simp [Binary.div, infinity, atRank, Nat.min_eq_left (Nat.le_of_lt ht), htop]

theorem HasRank.div_exists (hx : x.HasRank r) (hy : y.HasRank s) (hs : 0 < s) (ht : s < f.top) :
    ∃ q, (x / y).HasRank q := by
  rcases Nat.lt_or_eq_of_le hx.le_top with hr | rfl
  · exact ⟨_, hx.div hr hy hs ht⟩
  · rw [hx.eq_atRank f.top_pos]
    exact ⟨f.top, infinity_div false hy hs ht ▸ hasRank_atRank le_rfl⟩

theorem abs_hasRank (hx : x.isNaN = false) : x.abs.HasRank x.rank := by
  cases x with
  | nan => cases hx
  | number n a => exact abs_hasRank_iff.mpr ⟨n, a, rfl, rfl⟩

theorem middle_of_overflow {x y : Double} (hx : x.isFinite = true) (hy : y.isFinite = true)
    (hsum : ¬(x + y).isFinite = true) :
    ((x + y) / Scalar.ofNat 2).isNaN = false ∧ ¬((x + y) / Scalar.ofNat 2).isFinite = true := by
  obtain ⟨z, hz⟩ := add_eq_ofUnits hx hy
  obtain ⟨n, hn⟩ := eq_infinity (hz ▸ isNaN_ofUnits z _ 1) (Bool.eq_false_iff.mpr hsum)
  rw [hn, infinity_div n two_hasRank (by decide) (FloatFormat.power_lt_top (by decide))]
  exact ⟨rfl, hn ▸ hsum⟩

theorem sub_infinite (x : Binary f) (hy : y.isFinite = false) : (x - y).isFinite = false := by
  rw [Bool.eq_false_iff]
  intro hfin
  rw [(isFinite_of_sub hfin).2] at hy
  cases hy

theorem add_isFinite_iff (hx : x.isFinite = true) (hy : y.isFinite = true) :
    (x + y).isFinite = true ↔ f.nearest (x.amount + y.amount).natAbs 1 < f.top := by
  obtain ⟨zeroNegative, hz⟩ := add_eq_ofUnits hx hy
  rw [isFinite_iff_rank (hz ▸ isNaN_ofUnits _ _ _), hz, rank_ofUnits _ _ Nat.one_pos]

theorem nearest_lt_top_of_double (hx : (x + x).isFinite = true) {num : Int}
    (h : num.natAbs ≤ 2 * x.amount.natAbs) : f.nearest num.natAbs 1 < f.top := by
  have hfx := (isFinite_of_add hx).1
  rw [add_isFinite_iff hfx hfx] at hx
  exact lt_of_le_of_lt (f.nearest_mono Nat.one_pos Nat.one_pos (by omega)) hx

theorem add_isFinite_of_double (hx : (x + x).isFinite = true) (hy : (y + y).isFinite = true) :
    (x + y).isFinite = true := by
  rw [add_isFinite_iff (isFinite_of_add hx).1 (isFinite_of_add hy).1]
  rcases Nat.le_total x.amount.natAbs y.amount.natAbs with hle | hle
  · exact nearest_lt_top_of_double hy (by omega)
  · exact nearest_lt_top_of_double hx (by omega)

theorem sub_isFinite_of_double (hx : (x + x).isFinite = true) (hy : (y + y).isFinite = true) :
    (x - y).isFinite = true := by
  have hneg : (-y).isFinite = true := (isFinite_neg y).trans (isFinite_of_add hy).1
  refine add_isFinite_of_double hx ((add_isFinite_iff hneg hneg).mpr ?_)
  exact nearest_lt_top_of_double hy (by rw [amount_neg]; omega)

theorem double_isFinite_of_between (hz : z.isFinite = true) (hx : (x + x).isFinite = true)
    (hy : (y + y).isFinite = true) (hlow : x.amount ≤ z.amount) (hhigh : z.amount ≤ y.amount) :
    (z + z).isFinite = true := by
  rw [add_isFinite_iff hz hz]
  by_cases hle : z.amount.natAbs ≤ x.amount.natAbs
  · exact nearest_lt_top_of_double hx (by omega)
  · exact nearest_lt_top_of_double hy (by omega)

end Binary

end Federation
