import Federation.Proofs.Float.Amounts
import Federation.Proofs.Float.Zeros

/-!
# Operations that keep the order

Infinities are the ends of the order. Rounding does not turn two quantities round, and so of two
numbers the larger one stays the larger when a finite number is taken from both, also where a
difference is too large and becomes infinite.
-/

set_option autoImplicit false

namespace Federation.Binary

variable {f : FloatFormat} {x y z : Binary f} {den : Nat} {num num' : Int}

theorem isFinite_number_eq_false {n : Bool} {a : Fin (f.top + 1)} :
    (number n a : Binary f).isFinite = false ↔ a.val = f.top := by
  rw [← Bool.not_eq_true, isFinite_number, Decidable.not_not]

theorem eq_infinity (hx : x.isNaN = false) (h : x.isFinite = false) : ∃ n, x = infinity n := by
  cases x with
  | nan => cases hx
  | number n a => exact ⟨n, by rw [infinity, ← isFinite_number_eq_false.mp h, atRank_val]⟩

theorem isFinite_or_infinity (hx : x.isNaN = false) :
    x.isFinite = true ∨ ∃ n, x = infinity n := by
  by_cases hfin : x.isFinite = true
  · exact Or.inl hfin
  · exact Or.inr (eq_infinity hx (Bool.eq_false_iff.mpr hfin))

theorem amount_infinity (n : Bool) :
    (infinity n : Binary f).amount = f.signedUnits n f.top := amount_atRank n le_rfl

theorem isNaN_of_le (h : x.le y = true) : x.isNaN = false ∧ y.isNaN = false := by
  cases x with
  | nan => cases h
  | number n a =>
    cases y with
    | nan => cases h
    | number m b => exact ⟨rfl, rfl⟩

theorem le_self (hx : x.isNaN = false) : x.le x = true := (le_iff_amount hx hx).mpr le_rfl

theorem le_infinity (hx : x.isNaN = false) : x.le (infinity false) = true := by
  have hu := f.units_strictMono.monotone (rank_le_top x)
  have ha := natAbs_amount x
  rw [le_iff_amount hx rfl, amount_infinity, FloatFormat.signedUnits, if_neg Bool.false_ne_true]
  omega

theorem infinity_le (hx : x.isNaN = false) : (infinity true).le x = true := by
  have hu := f.units_strictMono.monotone (rank_le_top x)
  have ha := natAbs_amount x
  rw [le_iff_amount rfl hx, amount_infinity, FloatFormat.signedUnits, if_pos rfl]
  omega

protected theorem le_trans (hxy : x.le y = true) (hyz : y.le z = true) : x.le z = true := by
  obtain ⟨hx, hy⟩ := isNaN_of_le hxy
  obtain ⟨-, hz⟩ := isNaN_of_le hyz
  rw [le_iff_amount hx hy] at hxy
  rw [le_iff_amount hy hz] at hyz
  exact (le_iff_amount hx hz).mpr (Int.le_trans hxy hyz)

theorem max_spec (hx : x.isNaN = false) (hy : y.isNaN = false) :
    (x.max y = x ∨ x.max y = y) ∧ x.le (x.max y) = true ∧ y.le (x.max y) = true := by
  by_cases h : y.le x = true
  · have hmax : x.max y = x := by simp [Binary.max, hx, lt_eq_not_le hx hy, h]
    rw [hmax]
    exact ⟨Or.inl rfl, le_self hx, h⟩
  · have hmax : x.max y = y := by simp [Binary.max, hx, lt_eq_not_le hx hy, h]
    rw [hmax]
    rw [le_iff_amount hy hx] at h
    exact ⟨Or.inr rfl, (le_iff_amount hx hy).mpr (by omega), le_self hy⟩

theorem foldl_max_spec {xs : List (Binary f)} (hx : x.isNaN = false)
    (hxs : ∀ y ∈ xs, y.isNaN = false) :
    xs.foldl Binary.max x ∈ x :: xs ∧ ∀ y ∈ x :: xs, y.le (xs.foldl Binary.max x) = true := by
  induction xs generalizing x with
  | nil => simp [le_self hx]
  | cons y xs ih =>
    rw [List.forall_mem_cons] at hxs
    obtain ⟨hcase, hlx, hly⟩ := max_spec hx hxs.1
    obtain ⟨hmem, hle⟩ := ih (isNaN_of_le hlx).2 hxs.2
    rw [List.forall_mem_cons] at hle
    rw [List.forall_mem_cons, List.forall_mem_cons, List.foldl_cons]
    refine ⟨?_, Binary.le_trans hlx hle.1, Binary.le_trans hly hle.1, hle.2⟩
    rcases List.mem_cons.mp hmem with heq | hmem
    · rw [heq]
      rcases hcase with h | h <;> simp [h]
    · simp [hmem]

theorem le_cases (h : x.le y = true) : x = infinity true ∨ y = infinity false ∨
    (x.isFinite = true ∧ y.isFinite = true ∧ x.amount ≤ y.amount) := by
  obtain ⟨hx, hy⟩ := isNaN_of_le h
  have htop := f.units_pos f.top_pos
  rw [le_iff_amount hx hy] at h
  rcases isFinite_or_infinity hx with hfx | ⟨n, rfl⟩
  · rcases isFinite_or_infinity hy with hfy | ⟨m, rfl⟩
    · exact Or.inr (Or.inr ⟨hfx, hfy, h⟩)
    · cases m with
      | false => exact Or.inr (Or.inl rfl)
      | true =>
        have hlt := natAbs_amount_lt hfx
        rw [amount_infinity, FloatFormat.signedUnits, if_pos rfl] at h
        omega
  · cases n with
    | true => exact Or.inl rfl
    | false =>
      rw [amount_infinity, FloatFormat.signedUnits, if_neg Bool.false_ne_true] at h
      rcases isFinite_or_infinity hy with hfy | ⟨m, rfl⟩
      · have hlt := natAbs_amount_lt hfy
        omega
      · cases m with
        | false => exact Or.inr (Or.inl rfl)
        | true =>
          rw [amount_infinity, FloatFormat.signedUnits, if_pos rfl] at h
          omega

theorem amount_ofUnits_mono (zeroNegative zeroNegative' : Bool) (hd : 0 < den) (h : num ≤ num') :
    (ofUnits zeroNegative num den : Binary f).amount
      ≤ (ofUnits zeroNegative' num' den : Binary f).amount := by
  rw [amount_ofUnits _ _ hd, amount_ofUnits _ _ hd]
  by_cases hneg : num' < 0
  · have hround : f.nearest num'.natAbs den ≤ f.nearest num.natAbs den :=
      f.nearest_mono hd hd (Nat.mul_le_mul_right den (by omega))
    have hmono := f.units_strictMono.monotone hround
    rw [decide_eq_true hneg, decide_eq_true (show num < 0 by omega), FloatFormat.signedUnits,
      FloatFormat.signedUnits, if_pos rfl, if_pos rfl]
    omega
  · rw [decide_eq_false hneg, FloatFormat.signedUnits, FloatFormat.signedUnits,
      if_neg Bool.false_ne_true]
    by_cases hlow : num < 0
    · rw [decide_eq_true hlow, if_pos rfl]
      omega
    · have hround : f.nearest num.natAbs den ≤ f.nearest num'.natAbs den :=
        f.nearest_mono hd hd (Nat.mul_le_mul_right den (by omega))
      have hmono := f.units_strictMono.monotone hround
      rw [decide_eq_false hlow, if_neg Bool.false_ne_true]
      omega

theorem sub_isNaN (hx : x.isFinite = true) (hy : y.isNaN = false) : (x - y).isNaN = false := by
  cases x with
  | nan => cases hx
  | number n a =>
    cases y with
    | nan => cases hy
    | number m b =>
      have ha := isFinite_number.mp hx
      show (Binary.add (number n a) (number (!m) b)).isNaN = false
      unfold Binary.add
      simp only [ha, if_false]
      split
      · rfl
      · exact isNaN_ofUnits _ _ _

theorem infinity_sub (n : Bool) (hz : z.isFinite = true) : infinity n - z = infinity n := by
  cases z with
  | nan => cases hz
  | number m a =>
    have ha := isFinite_number.mp hz
    show Binary.add (infinity n) (number (!m) a) = _
    simp only [infinity, atRank, Binary.add, Nat.min_self, ha, if_true, false_and, if_false]

theorem sub_finite_isNaN (hx : x.isNaN = false) (hz : z.isFinite = true) :
    (x - z).isNaN = false := by
  rcases isFinite_or_infinity hx with hfin | ⟨n, rfl⟩
  · exact sub_isNaN hfin (isNaN_of_isFinite hz)
  · rw [infinity_sub n hz]
    rfl

theorem sub_mono (hz : z.isFinite = true) (h : x.le y = true) : (x - z).le (y - z) = true := by
  obtain ⟨hx, hy⟩ := isNaN_of_le h
  rcases le_cases h with rfl | rfl | ⟨hfx, hfy, hamount⟩
  · rw [infinity_sub true hz]
    exact infinity_le (sub_finite_isNaN hy hz)
  · rw [infinity_sub false hz]
    exact le_infinity (sub_finite_isNaN hx hz)
  · have hneg : (-z).isFinite = true := (isFinite_neg z).trans hz
    obtain ⟨n, hn⟩ := add_eq_ofUnits hfx hneg
    obtain ⟨m, hm⟩ := add_eq_ofUnits hfy hneg
    show (x + -z).le (y + -z) = true
    rw [hn, hm, le_iff_amount (isNaN_ofUnits _ _ _) (isNaN_ofUnits _ _ _)]
    exact amount_ofUnits_mono _ _ Nat.one_pos (Int.add_le_add_right hamount _)

end Federation.Binary
