import Federation.Proofs.Float.Grid
import Mathlib.Tactic.Linarith

/-!
# Where rounding changes

A quantity is rounded to a rank or above exactly if it lies above the point halfway to the rank
before, or on that point and the rank is even. So the quantities that round to one rank are those
between two such points, and a whole number of few bits is a point of the grid.
-/

set_option autoImplicit false

namespace Federation.FloatFormat

variable (f : FloatFormat)

/-- Twice the quantity halfway between the rank before and the rank. -/
def border (rank : Nat) : Nat := f.units (rank - 1) + f.units rank

theorem border_succ (rank : Nat) : f.border (rank + 1) = f.units rank + f.units (rank + 1) := rfl

theorem border_mono {rank rank' : Nat} (h : rank ≤ rank') : f.border rank ≤ f.border rank' :=
  Nat.add_le_add (f.units_strictMono.monotone (by omega)) (f.units_strictMono.monotone h)

theorem lt_settle_iff {rank : Nat} {twice : Nat → Ordering} (h : rank < f.top) :
    rank < f.settle rank twice ↔ twice (f.border (rank + 1)) = .gt ∨
      (twice (f.border (rank + 1)) = .eq ∧ (rank + 1) % 2 = 0) := by
  unfold settle
  rw [border_succ]
  cases twice (f.units rank + f.units (rank + 1)) <;> simp
  all_goals omega

theorem settle_le (rank : Nat) (twice : Nat → Ordering) : f.settle rank twice ≤ rank + 1 := by
  unfold settle
  cases twice (f.units rank + f.units (rank + 1)) <;> simp
  omega

theorem le_nearest_iff {rank num den : Nat} (hd : 0 < den) (hr : 0 < rank) (ht : rank ≤ f.top) :
    rank ≤ f.nearest num den ↔ f.border rank * den < 2 * num ∨
      (f.border rank * den = 2 * num ∧ rank % 2 = 0) := by
  obtain ⟨hl, hu⟩ := f.rankBelow_spec (num / den)
  have hlow : f.units (f.rankBelow (num / den)) * den ≤ num :=
    le_trans (Nat.mul_le_mul_right den hl) (Nat.div_mul_le_self num den)
  have hhigh : num < f.units (f.rankBelow (num / den) + 1) * den :=
    (Nat.div_lt_iff_lt_mul hd).mp hu
  generalize hb : f.rankBelow (num / den) = below at *
  have hsettle : f.nearest num den = f.settle below fun s => compare (2 * num) (s * den) := by
    rw [nearest, hb]
  rcases Nat.lt_trichotomy rank (below + 1) with hlt | heq | hgt
  · -- the quantity is at the rank or past it
    have hle : rank ≤ f.nearest num den :=
      f.le_nearest hd ht (le_trans
        (Nat.mul_le_mul_right den (f.units_strictMono.monotone (by omega))) hlow)
    have hstrict : f.units (rank - 1) * den < f.units rank * den :=
      Nat.mul_lt_mul_of_pos_right (f.units_strictMono (by omega)) hd
    have hmono : f.units rank * den ≤ f.units below * den :=
      Nat.mul_le_mul_right den (f.units_strictMono.monotone (by omega))
    have hborder : f.border rank * den = f.units (rank - 1) * den + f.units rank * den :=
      Nat.add_mul _ _ _
    exact iff_of_true hle (Or.inl (by omega))
  · subst heq
    rw [hsettle, Nat.succ_le_iff, f.lt_settle_iff (by omega), Nat.compare_eq_gt,
      Nat.compare_eq_eq, eq_comm (a := 2 * num)]
  · have hle := f.settle_le below fun s => compare (2 * num) (s * den)
    have hmono : f.units (below + 1) * den ≤ f.units (rank - 1) * den :=
      Nat.mul_le_mul_right den (f.units_strictMono.monotone (by omega))
    have hstrict : f.units (rank - 1) * den < f.units rank * den :=
      Nat.mul_lt_mul_of_pos_right (f.units_strictMono (by omega)) hd
    have hborder : f.border rank * den = f.units (rank - 1) * den + f.units rank * den :=
      Nat.add_mul _ _ _
    exact iff_of_false (by omega) (by omega)

/-- A quantity between the two borders of a rank is rounded to it; the borders belong to the even
ranks. -/
theorem nearest_eq {rank num den : Nat} (hd : 0 < den) (ht : rank < f.top)
    (hl : f.border rank * den < 2 * num ∨ (f.border rank * den = 2 * num ∧ rank % 2 = 0))
    (hu : 2 * num < f.border (rank + 1) * den ∨
      (2 * num = f.border (rank + 1) * den ∧ rank % 2 = 0)) : f.nearest num den = rank := by
  have hnot : ¬rank + 1 ≤ f.nearest num den := by
    intro h
    have hi := (f.le_nearest_iff hd (Nat.add_one_pos rank) ht).mp h
    omega
  have hle : rank ≤ f.nearest num den := by
    rcases Nat.eq_zero_or_pos rank with rfl | hr
    · exact Nat.zero_le _
    · exact (f.le_nearest_iff hd hr (le_of_lt ht)).mpr hl
  omega

theorem units_eq_step (rank : Nat) :
    ∃ q, f.units rank = q * 2 ^ f.step rank ∧ (f.step rank = 0 ∨ f.binade ≤ q) := by
  obtain ⟨-, -, hs⟩ := f.step_spec rank
  refine ⟨rank - f.step rank * f.binade, Nat.shiftLeft_eq _ _, ?_⟩
  omega

theorem units_rankBelow {q shift : Nat} (h : q < 2 ^ f.precision) :
    f.units (f.rankBelow (q * 2 ^ shift)) = q * 2 ^ shift := by
  obtain ⟨hlow, hhigh⟩ := f.rankBelow_spec (q * 2 ^ shift)
  rw [f.units_succ] at hhigh
  obtain ⟨k, hk, hs⟩ := f.units_eq_step (f.rankBelow (q * 2 ^ shift))
  have hstep : f.step (f.rankBelow (q * 2 ^ shift)) ≤ shift := by
    rcases hs with hs | hs
    · omega
    · have hlt : f.binade * 2 ^ f.step (f.rankBelow (q * 2 ^ shift))
          < 2 * f.binade * 2 ^ shift := by
        calc f.binade * 2 ^ f.step (f.rankBelow (q * 2 ^ shift))
            ≤ k * 2 ^ f.step (f.rankBelow (q * 2 ^ shift)) := Nat.mul_le_mul_right _ hs
          _ ≤ q * 2 ^ shift := hk ▸ hlow
          _ < 2 * f.binade * 2 ^ shift := by
            rw [two_mul_binade]
            exact Nat.mul_lt_mul_of_pos_right h (Nat.two_pow_pos _)
      rw [Nat.mul_comm 2, Nat.mul_assoc, ← Nat.pow_succ'] at hlt
      have hp := (Nat.pow_lt_pow_iff_right Nat.one_lt_two).mp (Nat.lt_of_mul_lt_mul_left hlt)
      omega
  -- both are multiples of the step, and they are less than one step apart
  have hdvd : 2 ^ f.step (f.rankBelow (q * 2 ^ shift)) ∣
      q * 2 ^ shift - f.units (f.rankBelow (q * 2 ^ shift)) := by
    apply Nat.dvd_sub
    · exact Dvd.dvd.mul_left (Nat.pow_dvd_pow 2 hstep) q
    · rw [hk]
      exact Nat.dvd_mul_left _ _
  have hzero := Nat.eq_zero_of_dvd_of_lt hdvd (by omega)
  omega

theorem nearest_exact {q shift den : Nat} (hd : 0 < den) (hq : q < 2 ^ f.precision)
    (ht : f.rankBelow (q * 2 ^ shift) ≤ f.top) :
    f.nearest (q * 2 ^ shift * den) den = f.rankBelow (q * 2 ^ shift) := by
  conv_lhs => rw [← f.units_rankBelow hq]
  exact f.nearest_units hd ht

theorem step_mono {rank rank' : Nat} (h : rank ≤ rank') : f.step rank ≤ f.step rank' :=
  Nat.sub_le_sub_right (Nat.div_le_div_right h) 1

theorem binade_mul_step_le {rank : Nat} (h : f.binade ≤ rank) :
    f.binade * 2 ^ f.step rank ≤ f.units rank := by
  obtain ⟨q, hq, hs | hs⟩ := f.units_eq_step rank
  · have hr : f.units rank = rank := by simp [units, hs]
    rw [hs, Nat.pow_zero, Nat.mul_one, hr]
    exact h
  · rw [hq]
    exact Nat.mul_le_mul_right _ hs

theorem border_succ_eq (rank : Nat) :
    ∃ m, f.border (rank + 1) = m * 2 ^ f.step rank ∧ m % 2 = 1 ∧ m < 2 ^ (f.precision + 1) ∧
      (0 < f.step rank → 2 ^ f.precision < m) := by
  obtain ⟨hl, hu, hs⟩ := f.step_spec rank
  have hb := f.two_mul_binade
  have hq : f.units rank = (rank - f.step rank * f.binade) * 2 ^ f.step rank :=
    Nat.shiftLeft_eq _ _
  refine ⟨2 * (rank - f.step rank * f.binade) + 1, ?_, by omega, ?_, ?_⟩
  · rw [border_succ, units_succ, hq]
    ring
  · rw [Nat.pow_succ]
    omega
  · omega

theorem binade_le_top : f.binade ≤ f.top := by
  have he := f.two_le_exponentBits
  have hp : 2 ^ 2 ≤ 2 ^ f.exponentBits := Nat.pow_le_pow_right (by decide) he
  rw [top, Nat.one_shiftLeft]
  exact Nat.le_mul_of_pos_left _ (by omega)

theorem nearest_halfStep {num den : Nat} (hd : 0 < den) (hpos : 0 < f.nearest num den)
    (ht : f.nearest num den < f.top) :
    2 * num ≤ 2 * (f.units (f.nearest num den) * den) + 2 ^ f.step (f.nearest num den) * den ∧
      2 * (f.units (f.nearest num den) * den)
        ≤ 2 * num + 2 ^ f.step (f.nearest num den - 1) * den ∧
      f.units (f.nearest num den - 1) * den ≤ num := by
  have hlow := (f.le_nearest_iff hd hpos (le_of_lt ht)).mp (le_refl (f.nearest num den))
  have hhigh : ¬(f.border (f.nearest num den + 1) * den < 2 * num) := fun h =>
    absurd ((f.le_nearest_iff hd (Nat.add_one_pos _) ht).mpr (Or.inl h)) (Nat.not_succ_le_self _)
  generalize f.nearest num den = rank at *
  have hsucc := f.units_succ (rank - 1)
  rw [Nat.sub_add_cancel hpos] at hsucc
  have hborder : f.border (rank + 1) * den
      = 2 * (f.units rank * den) + 2 ^ f.step rank * den := by
    rw [border_succ, units_succ]
    ring
  have hup : f.border rank * den + 2 ^ f.step (rank - 1) * den = 2 * (f.units rank * den) := by
    rw [border, hsucc]
    ring
  have hdown : f.border rank * den
      = 2 * (f.units (rank - 1) * den) + 2 ^ f.step (rank - 1) * den := by
    rw [border, hsucc]
    ring
  omega

theorem nearest_error {num den : Nat} (hd : 0 < den) (hbig : f.binade * den ≤ num)
    (ht : f.nearest num den < f.top) :
    (2 ^ f.precision - 1) * num ≤ 2 ^ f.precision * (f.units (f.nearest num den) * den) ∧
      2 ^ f.precision * (f.units (f.nearest num den) * den) ≤ (2 ^ f.precision + 1) * num := by
  have hbinade := f.binade_pos
  have hunits : f.units f.binade = f.binade := by
    have h : f.units (0 * f.binade + f.binade) = f.binade * 2 ^ 0 :=
      f.units_eq (by omega) (Or.inl rfl)
    simpa using h
  have hr : f.binade ≤ f.nearest num den := f.le_nearest hd f.binade_le_top (by rwa [hunits])
  obtain ⟨hup, hdown, hbelow⟩ := f.nearest_halfStep hd (by omega) ht
  generalize f.nearest num den = rank at *
  rw [← f.two_mul_binade]
  constructor
  · rcases Nat.le_total num (f.units rank * den) with hle | hle
    · exact Nat.mul_le_mul (Nat.sub_le _ _) hle
    · -- half a step is one part of the rounded number
      have hs : f.binade * (2 ^ f.step rank * den) ≤ f.units rank * den := by
        rw [← Nat.mul_assoc]
        exact Nat.mul_le_mul_right den (f.binade_mul_step_le hr)
      have hm := Nat.mul_le_mul_left f.binade hup
      rw [Nat.sub_mul, Nat.one_mul, Nat.sub_le_iff_le_add]
      linarith
  · rcases Nat.lt_or_eq_of_le hr with hlt | heq
    · have hs : f.binade * (2 ^ f.step (rank - 1) * den) ≤ f.units (rank - 1) * den := by
        rw [← Nat.mul_assoc]
        exact Nat.mul_le_mul_right den (f.binade_mul_step_le (by omega))
      have hm := Nat.mul_le_mul_left f.binade hdown
      linarith
    · rw [← heq, hunits]
      exact Nat.mul_le_mul (Nat.le_succ _) hbig

end Federation.FloatFormat
