import Federation.Float.Basic
import Federation.Proofs.Float.Rounding

/-!
# From double to single precision

A border between two numbers of single precision is itself a number of double precision, with many
bits to spare. So a number of double precision is narrowed by its place among those borders, and an
error of a few steps of double precision moves a quantity past a border only if the quantity was
close to it.
-/

set_option autoImplicit false

namespace Federation.FloatFormat

section Coarse

variable (f : FloatFormat) {q bits shift num den : Nat}

theorem step_rankBelow_le (hq : q < 2 ^ bits) (hb : bits ≤ f.precision)
    (hs : f.precision - bits ≤ shift) :
    2 ^ (f.precision - bits) * 2 ^ f.step (f.rankBelow (q * 2 ^ shift)) ≤ 2 ^ shift := by
  have hu : f.units (f.rankBelow (q * 2 ^ shift)) = q * 2 ^ shift :=
    f.units_rankBelow (lt_of_lt_of_le hq (Nat.pow_le_pow_right (by decide) hb))
  obtain ⟨k, hk, hz | hz⟩ := f.units_eq_step (f.rankBelow (q * 2 ^ shift))
  · rw [hz, Nat.pow_zero, Nat.mul_one]
    exact Nat.pow_le_pow_right (by decide) hs
  · have hlt : 2 ^ (f.precision - 1 + f.step (f.rankBelow (q * 2 ^ shift)))
        < 2 ^ (bits + shift) := by
      calc 2 ^ (f.precision - 1 + f.step (f.rankBelow (q * 2 ^ shift)))
          = f.binade * 2 ^ f.step (f.rankBelow (q * 2 ^ shift)) := by rw [Nat.pow_add, binade_eq]
        _ ≤ k * 2 ^ f.step (f.rankBelow (q * 2 ^ shift)) := Nat.mul_le_mul_right _ hz
        _ = q * 2 ^ shift := hk.symm.trans hu
        _ < 2 ^ (bits + shift) := by
          rw [Nat.pow_add]
          exact Nat.mul_lt_mul_of_pos_right hq (Nat.two_pow_pos _)
    have he := (Nat.pow_lt_pow_iff_right Nat.one_lt_two).mp hlt
    have hp := f.two_le_precision
    rw [← Nat.pow_add]
    exact Nat.pow_le_pow_right (by decide) (by omega)

theorem nearest_lt_of_clear (hd : 0 < den) (hq : q < 2 ^ bits) (hb : bits ≤ f.precision)
    (hs : f.precision - bits ≤ shift) (ht : f.rankBelow (q * 2 ^ shift) ≤ f.top)
    (h : 2 ^ (f.precision - bits) * num + 2 ^ shift * den
      ≤ 2 ^ (f.precision - bits) * (q * 2 ^ shift * den)) :
    f.nearest num den < f.rankBelow (q * 2 ^ shift) := by
  have hu : f.units (f.rankBelow (q * 2 ^ shift)) = q * 2 ^ shift :=
    f.units_rankBelow (lt_of_lt_of_le hq (Nat.pow_le_pow_right (by decide) hb))
  have hstep := f.step_rankBelow_le hq hb hs
  generalize f.rankBelow (q * 2 ^ shift) = b at *
  have hspos : 0 < 2 ^ shift * den := Nat.mul_pos (Nat.two_pow_pos _) hd
  have hpos : 0 < b := by
    apply Nat.pos_of_ne_zero
    rintro rfl
    rw [f.units_zero] at hu
    rw [← hu, Nat.zero_mul, Nat.mul_zero] at h
    omega
  have hsucc := f.units_succ (b - 1)
  rw [Nat.sub_add_cancel hpos] at hsucc
  have hmono : 2 ^ f.step (b - 1) ≤ 2 ^ f.step b :=
    Nat.pow_le_pow_right (by decide) (f.step_mono (Nat.sub_le _ _))
  have hgap : 2 ^ (f.precision - bits) * (2 ^ f.step (b - 1) * den) ≤ 2 ^ shift * den := by
    rw [← Nat.mul_assoc]
    exact Nat.mul_le_mul_right den (le_trans (Nat.mul_le_mul_left _ hmono) hstep)
  have hborder : f.border b * den + 2 ^ f.step (b - 1) * den = 2 * (q * 2 ^ shift * den) := by
    rw [border, ← hu, hsucc]
    ring
  have hlt : 2 * num < f.border b * den := by
    apply Nat.lt_of_mul_lt_mul_left (a := 2 ^ (f.precision - bits))
    have hmul := congrArg (2 ^ (f.precision - bits) * ·) hborder
    simp only [Nat.mul_add] at hmul
    rw [Nat.mul_left_comm _ 2 num]
    rw [Nat.mul_left_comm _ 2 (q * 2 ^ shift * den)] at hmul
    omega
  rw [← Nat.not_le, f.le_nearest_iff hd hpos ht]
  omega

theorem lt_nearest_of_clear (hd : 0 < den) (hq : q < 2 ^ bits) (hb : bits ≤ f.precision)
    (hs : f.precision - bits ≤ shift) (ht : f.rankBelow (q * 2 ^ shift) < f.top)
    (h : 2 ^ (f.precision - bits) * (q * 2 ^ shift * den) + 2 ^ shift * den
      ≤ 2 ^ (f.precision - bits) * num) :
    f.rankBelow (q * 2 ^ shift) < f.nearest num den := by
  have hu : f.units (f.rankBelow (q * 2 ^ shift)) = q * 2 ^ shift :=
    f.units_rankBelow (lt_of_lt_of_le hq (Nat.pow_le_pow_right (by decide) hb))
  have hstep := f.step_rankBelow_le hq hb hs
  generalize f.rankBelow (q * 2 ^ shift) = b at *
  have hspos : 0 < 2 ^ shift * den := Nat.mul_pos (Nat.two_pow_pos _) hd
  have hgap : 2 ^ (f.precision - bits) * (2 ^ f.step b * den) ≤ 2 ^ shift * den := by
    rw [← Nat.mul_assoc]
    exact Nat.mul_le_mul_right den hstep
  have hborder : f.border (b + 1) * den = 2 * (q * 2 ^ shift * den) + 2 ^ f.step b * den := by
    rw [border_succ, units_succ, ← hu]
    ring
  have hlt : f.border (b + 1) * den < 2 * num := by
    apply Nat.lt_of_mul_lt_mul_left (a := 2 ^ (f.precision - bits))
    rw [hborder, Nat.mul_add, Nat.mul_left_comm _ 2 num,
      Nat.mul_left_comm _ 2 (q * 2 ^ shift * den)]
    omega
  exact (f.le_nearest_iff hd (Nat.add_one_pos b) ht).mpr (Or.inl hlt)

end Coarse

theorem one_double : double.one = 2 * (2 ^ 924 * single.one) := by
  rw [double.one_eq_two_pow, single.one_eq_two_pow, ← Nat.pow_add, ← Nat.pow_succ',
    show double.scale = 924 + single.scale + 1 by decide]

/-- The number of double precision that lies halfway between a rank of single precision and the
next one. -/
def halfway (rank : Nat) : Nat := double.rankBelow (single.border (rank + 1) * 2 ^ 924)

variable {rank : Nat}

theorem halfway_eq (rank : Nat) : ∃ m, single.border (rank + 1) = m * 2 ^ single.step rank ∧
    m % 2 = 1 ∧ m < 2 ^ 25 ∧ (0 < single.step rank → 2 ^ 24 < m) ∧
    halfway rank = double.rankBelow (m * 2 ^ (single.step rank + 924)) := by
  obtain ⟨m, hm, hodd, hlt, hlow⟩ := single.border_succ_eq rank
  refine ⟨m, hm, hodd, hlt, hlow, ?_⟩
  rw [halfway, hm, Nat.mul_assoc, ← Nat.pow_add]

theorem units_halfway (rank : Nat) :
    double.units (halfway rank) = single.border (rank + 1) * 2 ^ 924 := by
  obtain ⟨m, hm, -, hlt, -, hh⟩ := halfway_eq rank
  rw [hh, double.units_rankBelow (lt_of_lt_of_le hlt (by decide)), hm, Nat.mul_assoc,
    ← Nat.pow_add]

theorem halfway_lt_top (h : rank < single.top) : halfway rank < double.top := by
  have hb : single.border (rank + 1) ≤ single.border single.top := single.border_mono h
  have ht : double.rankBelow (single.border single.top * 2 ^ 924) < double.top := by
    decide +kernel
  exact lt_of_le_of_lt (double.rankBelow_mono (Nat.mul_le_mul_right _ hb)) ht

/-- A number of double precision is narrowed past a rank if it lies above the number halfway to the
next rank, or is that number and the next rank is even. -/
theorem lt_narrow_iff (wide : Nat) (h : rank < single.top) :
    rank < single.nearest (double.units wide * single.one) double.one ↔
      halfway rank < wide ∨ (halfway rank = wide ∧ (rank + 1) % 2 = 0) := by
  have hone : 0 < single.one := by decide
  have hd : 0 < double.one := by decide
  have hborder : single.border (rank + 1) * double.one
      = 2 * (double.units (halfway rank) * single.one) := by
    rw [units_halfway, one_double, Nat.mul_left_comm, Nat.mul_assoc]
  rw [← Nat.succ_le_iff, single.le_nearest_iff hd (Nat.succ_pos _) h, Nat.succ_eq_add_one,
    hborder]
  have hlt : 2 * (double.units (halfway rank) * single.one)
      < 2 * (double.units wide * single.one) ↔ halfway rank < wide := by
    rw [Nat.mul_lt_mul_left (by decide), Nat.mul_lt_mul_right hone,
      double.units_strictMono.lt_iff_lt]
  have heq : 2 * (double.units (halfway rank) * single.one)
      = 2 * (double.units wide * single.one) ↔ halfway rank = wide := by
    rw [Nat.mul_right_inj (by decide), Nat.mul_left_inj (Nat.ne_of_gt hone),
      double.units_strictMono.injective.eq_iff]
  rw [hlt, heq]

theorem narrow_eq {wide : Nat} (h : rank < single.top)
    (hl : 0 < rank → halfway (rank - 1) < wide ∨ (halfway (rank - 1) = wide ∧ rank % 2 = 0))
    (hu : wide < halfway rank ∨ (wide = halfway rank ∧ rank % 2 = 0)) :
    single.nearest (double.units wide * single.one) double.one = rank := by
  have hnot := (lt_narrow_iff wide h).not
  have hle : rank ≤ single.nearest (double.units wide * single.one) double.one := by
    rcases Nat.eq_zero_or_pos rank with rfl | hr
    · exact Nat.zero_le _
    · have hlt : rank - 1 < single.top := by omega
      have hiff := lt_narrow_iff wide hlt
      rw [Nat.sub_add_cancel hr] at hiff
      have := hiff.mpr (hl hr)
      omega
  have hge := hnot.mpr (by omega)
  omega

end Federation.FloatFormat
