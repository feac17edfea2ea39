import Federation.Float.Format
import Mathlib.Order.Monotone.Basic
import Mathlib.Tactic.Ring

/-!
# Rounding on a grid

The units of a rank grow strictly with the rank, and the rank below a quantity is the greatest one
whose units are at most that quantity. So rounding is monotone in the quantity and leaves the points
of the grid where they are, and a bound that is a point of the grid survives it.
-/

set_option autoImplicit false

namespace Federation.FloatFormat

variable (f : FloatFormat)

theorem binade_eq : f.binade = 2 ^ (f.precision - 1) := by
  rw [binade, Nat.one_shiftLeft]

theorem one_eq_two_pow : f.one = 2 ^ f.scale := by
  rw [one, Nat.one_shiftLeft]

theorem binade_pos : 0 < f.binade := by
  rw [binade_eq]
  exact Nat.two_pow_pos _

theorem two_mul_binade : 2 * f.binade = 2 ^ f.precision := by
  have hp := f.two_le_precision
  rw [binade_eq, ← Nat.pow_succ']
  congr 1
  omega

/-- A rank lies in the two binades above its step, and above the first step in the second one. -/
theorem step_spec (rank : Nat) :
    f.step rank * f.binade ≤ rank ∧ rank < f.step rank * f.binade + 2 * f.binade ∧
      (f.step rank = 0 ∨ f.step rank * f.binade + f.binade ≤ rank) := by
  have hb := f.binade_pos
  have hd := Nat.div_add_mod' rank f.binade
  have hm := Nat.mod_lt rank hb
  unfold step
  cases hq : rank / f.binade with
  | zero =>
    rw [hq] at hd
    refine ⟨by simp, ?_, Or.inl rfl⟩
    simp only [Nat.zero_sub]
    omega
  | succ k =>
    rw [hq, Nat.succ_mul] at hd
    simp only [Nat.add_sub_cancel]
    exact ⟨by omega, by omega, Or.inr (by omega)⟩

theorem step_eq {step q : Nat} (hq : q < 2 * f.binade) (hs : step = 0 ∨ f.binade ≤ q) :
    f.step (step * f.binade + q) = step := by
  have hb := f.binade_pos
  unfold FloatFormat.step
  rcases hs with rfl | hs
  · have hd : q / f.binade < 2 := (Nat.div_lt_iff_lt_mul hb).mpr (by omega)
    simp only [Nat.zero_mul, Nat.zero_add]
    omega
  · have hd : (step * f.binade + q) / f.binade = step + 1 := by
      refine Nat.div_eq_of_lt_le ?_ ?_
      · rw [Nat.succ_mul]
        omega
      · rw [Nat.succ_mul, Nat.succ_mul]
        omega
    rw [hd, Nat.add_sub_cancel]

theorem units_eq {step q : Nat} (hq : q < 2 * f.binade) (hs : step = 0 ∨ f.binade ≤ q) :
    f.units (step * f.binade + q) = q * 2 ^ step := by
  rw [units, f.step_eq hq hs, Nat.add_sub_cancel_left, Nat.shiftLeft_eq]

theorem units_succ (rank : Nat) : f.units (rank + 1) = f.units rank + 2 ^ f.step rank := by
  obtain ⟨hl, hu, hs⟩ := f.step_spec rank
  generalize f.step rank = step at *
  obtain ⟨q, rfl⟩ := Nat.exists_eq_add_of_le hl
  have hq : q < 2 * f.binade := by omega
  have hb : step = 0 ∨ f.binade ≤ q := by omega
  rw [f.units_eq hq hb]
  by_cases hn : q + 1 < 2 * f.binade
  · rw [Nat.add_assoc, f.units_eq hn (by omega)]
    ring
  · have he : step * f.binade + q + 1 = (step + 1) * f.binade + f.binade := by
      rw [Nat.succ_mul]
      omega
    have hc : q + 1 = 2 * f.binade := by omega
    have hp := f.binade_pos
    calc f.units (step * f.binade + q + 1)
        = f.binade * 2 ^ (step + 1) := by rw [he, f.units_eq (by omega) (Or.inr le_rfl)]
      _ = (2 * f.binade) * 2 ^ step := by ring
      _ = q * 2 ^ step + 2 ^ step := by rw [← hc]; ring

theorem units_strictMono : StrictMono f.units := by
  apply strictMono_nat_of_lt_succ
  intro rank
  rw [units_succ]
  exact Nat.lt_add_of_pos_right (Nat.two_pow_pos _)

theorem units_zero : f.units 0 = 0 := by
  simp [units]

theorem units_pos {rank : Nat} (h : 0 < rank) : 0 < f.units rank := by
  rw [← f.units_zero]
  exact f.units_strictMono h

theorem units_eq_zero_iff (rank : Nat) : f.units rank = 0 ↔ rank = 0 := by
  simpa only [f.units_zero] using f.units_strictMono.injective.eq_iff (a := rank) (b := 0)

/-- The quantity lies between the units of the rank below it and those of the next rank. -/
theorem rankBelow_spec (n : Nat) :
    f.units (f.rankBelow n) ≤ n ∧ n < f.units (f.rankBelow n + 1) := by
  have hp := f.two_le_precision
  have hl : n < 2 ^ (n.log2 + 1) := Nat.lt_log2_self
  have hpow : 2 ^ (n.log2 + 1) ≤ 2 ^ f.precision * 2 ^ (n.log2 + 1 - f.precision) := by
    rw [← Nat.pow_add]
    exact Nat.pow_le_pow_right (by decide) (by omega)
  have hq : n >>> (n.log2 + 1 - f.precision) < 2 * f.binade := by
    rw [two_mul_binade, Nat.shiftRight_eq_div_pow]
    exact (Nat.div_lt_iff_lt_mul (Nat.two_pow_pos _)).mpr (by omega)
  have hs : n.log2 + 1 - f.precision = 0 ∨
      f.binade ≤ n >>> (n.log2 + 1 - f.precision) := by
    by_cases hz : n.log2 + 1 - f.precision = 0
    · exact Or.inl hz
    · right
      have hn : n ≠ 0 := by
        rintro rfl
        simp at hz
        omega
      have hself := Nat.log2_self_le hn
      rw [binade_eq, Nat.shiftRight_eq_div_pow]
      apply (Nat.le_div_iff_mul_le (Nat.two_pow_pos _)).mpr
      rw [← Nat.pow_add]
      refine le_trans (Nat.pow_le_pow_right (by decide) ?_) hself
      omega
  rw [units_succ, rankBelow, f.step_eq hq hs, f.units_eq hq hs, Nat.shiftRight_eq_div_pow]
  refine ⟨Nat.div_mul_le_self _ _, ?_⟩
  exact Nat.lt_div_mul_add (Nat.two_pow_pos _)

theorem le_rankBelow_iff {rank n : Nat} : rank ≤ f.rankBelow n ↔ f.units rank ≤ n := by
  obtain ⟨hl, hu⟩ := f.rankBelow_spec n
  constructor
  · intro h
    exact le_trans (f.units_strictMono.monotone h) hl
  · intro h
    by_contra hc
    have hm := f.units_strictMono.monotone (show f.rankBelow n + 1 ≤ rank by omega)
    omega

theorem rankBelow_mono {m n : Nat} (h : m ≤ n) : f.rankBelow m ≤ f.rankBelow n :=
  f.le_rankBelow_iff.mpr (le_trans (f.rankBelow_spec m).1 h)

theorem rankBelow_units (rank : Nat) : f.rankBelow (f.units rank) = rank := by
  refine le_antisymm ?_ (f.le_rankBelow_iff.mpr le_rfl)
  exact f.units_strictMono.le_iff_le.mp (f.rankBelow_spec _).1

theorem units_one : f.units 1 = 1 := by
  rw [f.units_succ 0, f.units_zero]
  simp [step]

theorem le_settle {rank below : Nat} {twice : Nat → Ordering} (ht : rank ≤ f.top)
    (h : rank ≤ below) : rank ≤ f.settle below twice := by
  unfold settle
  refine Nat.le_min.mpr ⟨?_, ht⟩
  apply le_trans h
  cases twice (f.units below + f.units (below + 1)) <;> simp

theorem settle_mono {rank rank' : Nat} {twice twice' : Nat → Ordering} (h : rank ≤ rank')
    (hlt : rank = rank' → ∀ s, twice' s = .lt → twice s = .lt)
    (hgt : rank = rank' → ∀ s, twice s = .gt → twice' s = .gt) :
    f.settle rank twice ≤ f.settle rank' twice' := by
  unfold settle
  refine Nat.le_min.mpr ⟨?_, Nat.min_le_right _ _⟩
  apply le_trans (Nat.min_le_left _ _)
  rcases Nat.lt_or_eq_of_le h with h | h
  · cases twice (f.units rank + f.units (rank + 1)) <;>
      cases twice' (f.units rank' + f.units (rank' + 1)) <;>
        simp only <;> omega
  · subst h
    have hl := hlt rfl (f.units rank + f.units (rank + 1))
    have hg := hgt rfl (f.units rank + f.units (rank + 1))
    cases ht : twice (f.units rank + f.units (rank + 1)) <;>
      cases ht' : twice' (f.units rank + f.units (rank + 1)) <;>
        simp_all
    all_goals omega

theorem nearest_mono {a b d e : Nat} (hd : 0 < d) (he : 0 < e) (h : a * e ≤ b * d) :
    f.nearest a d ≤ f.nearest b e := by
  have hq : a / d ≤ b / e := by
    refine (Nat.le_div_iff_mul_le he).mpr (Nat.le_of_mul_le_mul_right ?_ hd)
    calc a / d * e * d = a / d * d * e := by ring
      _ ≤ a * e := Nat.mul_le_mul_right e (Nat.div_mul_le_self a d)
      _ ≤ b * d := h
  refine f.settle_mono (f.rankBelow_mono hq) (fun _ s hs => ?_) (fun _ s hs => ?_)
  · rw [Nat.compare_eq_lt] at hs ⊢
    apply Nat.lt_of_mul_lt_mul_right (a := e)
    calc 2 * a * e = 2 * (a * e) := Nat.mul_assoc 2 a e
      _ ≤ 2 * (b * d) := Nat.mul_le_mul_left 2 h
      _ = 2 * b * d := (Nat.mul_assoc 2 b d).symm
      _ < s * e * d := Nat.mul_lt_mul_of_pos_right hs hd
      _ = s * d * e := by ring
  · rw [Nat.compare_eq_gt] at hs ⊢
    apply Nat.lt_of_mul_lt_mul_right (a := d)
    calc s * e * d = s * d * e := by ring
      _ < 2 * a * e := Nat.mul_lt_mul_of_pos_right hs he
      _ = 2 * (a * e) := Nat.mul_assoc 2 a e
      _ ≤ 2 * (b * d) := Nat.mul_le_mul_left 2 h
      _ = 2 * b * d := (Nat.mul_assoc 2 b d).symm

theorem nearest_units {rank d : Nat} (hd : 0 < d) (h : rank ≤ f.top) :
    f.nearest (f.units rank * d) d = rank := by
  have hu : f.units rank < f.units (rank + 1) := f.units_strictMono (Nat.lt_succ_self rank)
  have hc : compare (2 * (f.units rank * d)) ((f.units rank + f.units (rank + 1)) * d) = .lt := by
    rw [Nat.compare_eq_lt]
    calc 2 * (f.units rank * d) = (f.units rank + f.units rank) * d := by ring
      _ < (f.units rank + f.units (rank + 1)) * d := Nat.mul_lt_mul_of_pos_right (by omega) hd
  rw [nearest, Nat.mul_div_cancel _ hd, rankBelow_units, settle, hc]
  exact Nat.min_eq_left h

theorem nearest_zero {d : Nat} (hd : 0 < d) : f.nearest 0 d = 0 := by
  simpa [f.units_zero] using f.nearest_units hd (Nat.zero_le f.top)

theorem le_nearest {rank a d : Nat} (hd : 0 < d) (hr : rank ≤ f.top) (h : f.units rank * d ≤ a) :
    rank ≤ f.nearest a d := by
  rw [← f.nearest_units hd hr]
  exact f.nearest_mono hd hd (Nat.mul_le_mul_right d h)

theorem nearest_le {rank a d : Nat} (hd : 0 < d) (hr : rank ≤ f.top) (h : a ≤ f.units rank * d) :
    f.nearest a d ≤ rank := by
  rw [← f.nearest_units hd hr]
  exact f.nearest_mono hd hd (Nat.mul_le_mul_right d h)

theorem le_descend (test : Nat → Bool) (bits start : Nat) : start ≤ descend test bits start := by
  induction bits generalizing start with
  | zero => exact le_rfl
  | succ bits ih =>
    refine le_trans ?_ (ih _)
    split
    · exact Nat.le_add_right _ _
    · exact le_rfl

theorem descend_lt (test : Nat → Bool) (bits start : Nat) :
    descend test bits start < start + 1 <<< bits := by
  induction bits generalizing start with
  | zero => simp [descend]
  | succ bits ih =>
    have hb : 1 <<< (bits + 1) = 1 <<< bits + 1 <<< bits := by
      simp only [Nat.one_shiftLeft]
      ring
    rw [hb, ← Nat.add_assoc]
    apply lt_of_lt_of_le (ih _)
    split
    · exact le_rfl
    · exact Nat.add_le_add_right (Nat.le_add_right _ _) _

theorem descend_mono {test test' : Nat → Bool} (h : ∀ k, test k = true → test' k = true)
    (bits start : Nat) : descend test bits start ≤ descend test' bits start := by
  induction bits generalizing start with
  | zero => exact le_rfl
  | succ bits ih =>
    unfold descend
    by_cases ht : test (start + 1 <<< bits) = true
    · rw [if_pos ht, if_pos (h _ ht)]
      exact ih _
    · rw [if_neg ht]
      split
      · exact le_of_lt (lt_of_lt_of_le (descend_lt _ _ _) (le_descend _ _ _))
      · exact ih _

theorem le_descend_of_test {test : Nat → Bool} {k bits start : Nat}
    (h : ∀ i ≤ k, test i = true) (hk : k < start + 1 <<< bits) : k ≤ descend test bits start := by
  induction bits generalizing start with
  | zero =>
    rw [Nat.shiftLeft_zero] at hk
    exact Nat.le_of_lt_succ hk
  | succ bits ih =>
    unfold descend
    apply ih
    rw [Nat.one_shiftLeft, Nat.pow_succ] at hk
    rw [Nat.one_shiftLeft]
    -- Where the test fails, the number is below, so the remaining bits still reach it.
    by_cases ht : test (start + 2 ^ bits) = true
    · rw [if_pos ht]
      omega
    · rw [if_neg ht]
      exact Nat.lt_of_not_le fun hle => ht (h _ hle)

theorem top_lt_shiftLeft : f.top < 1 <<< (f.exponentBits + f.precision - 1) := by
  have hp := f.two_le_precision
  have hbits : f.exponentBits + f.precision - 1 = f.exponentBits + (f.precision - 1) := by omega
  rw [top, hbits, Nat.one_shiftLeft, Nat.one_shiftLeft, Nat.pow_add, ← binade_eq]
  exact Nat.mul_lt_mul_of_pos_right (Nat.sub_one_lt (Nat.two_pow_pos _).ne') f.binade_pos

theorem le_nearestRoot {rank n : Nat} (hr : rank ≤ f.top) (h : f.units rank * f.units rank ≤ n) :
    rank ≤ f.nearestRoot n := by
  apply f.le_settle hr
  apply le_descend_of_test
  · intro i hi
    have hu := f.units_strictMono.monotone hi
    exact decide_eq_true (le_trans (Nat.mul_le_mul hu hu) h)
  · rw [Nat.zero_add]
    exact lt_of_le_of_lt hr f.top_lt_shiftLeft

theorem nearestRoot_mono {m n : Nat} (h : m ≤ n) : f.nearestRoot m ≤ f.nearestRoot n := by
  refine f.settle_mono (descend_mono (fun k hk => ?_) _ _) (fun _ s hs => ?_) (fun _ s hs => ?_)
  · rw [decide_eq_true_eq] at hk ⊢
    exact le_trans hk h
  · rw [Nat.compare_eq_lt] at hs ⊢
    omega
  · rw [Nat.compare_eq_gt] at hs ⊢
    omega

theorem descend_of_test (test : Nat → Bool) {start : Nat} (h : test start = true) (bits : Nat) :
    test (descend test bits start) = true := by
  induction bits generalizing start with
  | zero => exact h
  | succ bits ih =>
    unfold descend
    apply ih
    split
    · assumption
    · exact h

theorem nearestRoot_units {rank : Nat} (h : rank ≤ f.top) :
    f.nearestRoot (f.units rank * f.units rank) = rank := by
  have hu : f.units rank < f.units (rank + 1) := f.units_strictMono (Nat.lt_succ_self rank)
  have hd : descend (fun k => f.units k * f.units k ≤ f.units rank * f.units rank)
      (f.exponentBits + f.precision - 1) 0 = rank := by
    apply le_antisymm
    · have hpass := descend_of_test (fun k => f.units k * f.units k ≤ f.units rank * f.units rank)
        (show decide (f.units 0 * f.units 0 ≤ _) = true by simp [f.units_zero])
        (f.exponentBits + f.precision - 1)
      exact f.units_strictMono.le_iff_le.mp
        (Nat.mul_self_le_mul_self_iff.mp (of_decide_eq_true hpass))
    · refine le_descend_of_test (fun i hi => decide_eq_true ?_) ?_
      · exact Nat.mul_self_le_mul_self (f.units_strictMono.monotone hi)
      · rw [Nat.zero_add]
        exact lt_of_le_of_lt h f.top_lt_shiftLeft
  have hc : compare (4 * (f.units rank * f.units rank))
      ((f.units rank + f.units (rank + 1)) * (f.units rank + f.units (rank + 1))) = .lt := by
    rw [Nat.compare_eq_lt]
    calc 4 * (f.units rank * f.units rank)
        = (f.units rank + f.units rank) * (f.units rank + f.units rank) := by ring
      _ < _ := Nat.mul_self_lt_mul_self (by omega)
  rw [nearestRoot, hd, settle, hc]
  exact Nat.min_eq_left h

theorem nearestRoot_le {rank n : Nat} (hr : rank ≤ f.top) (h : n ≤ f.units rank * f.units rank) :
    f.nearestRoot n ≤ rank := by
  rw [← f.nearestRoot_units hr]
  exact f.nearestRoot_mono h

end Federation.FloatFormat
