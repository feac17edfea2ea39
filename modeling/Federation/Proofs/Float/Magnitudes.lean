import Federation.Proofs.Float.Sums

/-!
# Magnitudes of results

A difference has the same magnitude in either order, a square depends on the magnitude alone, and no
operation on the way to a distance makes a finite number of one that is not finite. The magnitude of
a result is at most what rounding makes of a bound on its operands.
-/

set_option autoImplicit false

namespace Federation.Binary

variable {f : FloatFormat} {x y : Binary f} {r s : Nat}

theorem abs_hasRank_iff :
    x.abs.HasRank r ↔ ∃ negative rank, x = number negative rank ∧ rank.val = r := by
  cases x with
  | nan => simp [abs, HasRank, position]
  | number negative rank => simp [abs, HasRank, position]

theorem abs_unsigned (x : Binary f) : x.abs.Unsigned := by
  cases x with
  | nan => exact Or.inl rfl
  | number negative rank => exact (abs_hasRank_iff.mpr ⟨negative, rank, rfl, rfl⟩).unsigned

theorem abs_isFinite (x : Binary f) : x.abs.isFinite = x.isFinite := by
  cases x <;> rfl

theorem finite_iff_abs : x.isFinite = true ↔ ∃ r, x.abs.HasRank r ∧ r < f.top := by
  rw [← abs_isFinite]
  constructor
  · exact (abs_unsigned x).finite
  · rintro ⟨r, hr, ht⟩
    rw [hr.isFinite, decide_eq_true ht]

theorem signedUnits_not (f : FloatFormat) (negative : Bool) (rank : Nat) :
    f.signedUnits (!negative) rank = -f.signedUnits negative rank := by
  cases negative <;> simp [FloatFormat.signedUnits]

theorem natAbs_signedUnits (f : FloatFormat) (negative : Bool) (rank : Nat) :
    (f.signedUnits negative rank).natAbs = f.units rank := by
  cases negative <;> simp [FloatFormat.signedUnits]

theorem abs_ofUnits (zeroNegative : Bool) (num : Int) {den : Nat} (h : 0 < den) :
    (ofUnits zeroNegative num den : Binary f).abs = atRank false (f.nearest num.natAbs den) := by
  unfold ofUnits
  by_cases hz : num = 0
  · rw [if_pos hz, hz, Int.natAbs_zero, f.nearest_zero h]
    rfl
  · rw [if_neg hz]
    rfl

theorem number_add {n m : Bool} {a b : Fin (f.top + 1)} (ha : a.val ≠ f.top)
    (hb : b.val ≠ f.top) :
    number n a + number m b
      = ofUnits (n && m) (f.signedUnits n a.val + f.signedUnits m b.val) 1 := by
  show Binary.add (number n a) (number m b) = _
  unfold Binary.add
  simp only [ha, hb, if_false]

theorem number_sub {n m : Bool} {a b : Fin (f.top + 1)} (ha : a.val ≠ f.top)
    (hb : b.val ≠ f.top) :
    number n a - number m b
      = ofUnits (n && !m) (f.signedUnits n a.val - f.signedUnits m b.val) 1 := by
  rw [Int.sub_eq_add_neg, ← signedUnits_not]
  exact number_add ha hb

theorem nan_sub (y : Binary f) : nan - y = nan := rfl

theorem sub_nan (x : Binary f) : x - nan = nan := add_nan x

theorem abs_sub_comm (x y : Binary f) : (x - y).abs = (y - x).abs := by
  cases x with
  | nan => rw [nan_sub, sub_nan]
  | number n a =>
    cases y with
    | nan => rw [nan_sub, sub_nan]
    | number m b =>
      have hadd : (number n a - number m b).abs = (number m b - number n a).abs ↔
          (Binary.add (number n a) (number (!m) b)).abs
            = (Binary.add (number m b) (number (!n) a)).abs := Iff.rfl
      by_cases ha : a.val = f.top
      · rw [hadd]
        unfold Binary.add
        by_cases hb : b.val = f.top
        · -- two infinities
          cases n <;> cases m <;> simp [ha, hb, Binary.abs, Fin.ext_iff]
        · simp [ha, hb, Binary.abs]
      · by_cases hb : b.val = f.top
        · rw [hadd]
          unfold Binary.add
          simp [ha, hb, Binary.abs]
        · rw [number_sub ha hb, number_sub hb ha, abs_ofUnits _ _ Nat.one_pos,
            abs_ofUnits _ _ Nat.one_pos, ← Int.neg_sub, Int.natAbs_neg]

theorem isFinite_number {n : Bool} {a : Fin (f.top + 1)} :
    (number n a).isFinite = true ↔ a.val ≠ f.top := by
  have := a.isLt
  simp only [isFinite, decide_eq_true_eq]
  omega

protected theorem sub_self (hx : x.isFinite = true) : x - x = zero := by
  cases x with
  | nan => cases hx
  | number n a =>
    have ha := isFinite_number.mp hx
    rw [number_sub ha ha, Int.sub_self, Bool.and_not_self]
    rfl

theorem isFinite_of_add (h : (x + y).isFinite = true) : x.isFinite = true ∧ y.isFinite = true := by
  cases x with
  | nan => cases h
  | number n a =>
    cases y with
    | nan => cases h
    | number m b =>
      have hadd : (Binary.add (number n a) (number m b)).isFinite = true := h
      unfold Binary.add at hadd
      by_cases ha : a.val = f.top
      · simp only [ha, if_true] at hadd
        split at hadd
        · cases hadd
        · exact absurd ha (isFinite_number.mp hadd)
      · by_cases hb : b.val = f.top
        · simp only [ha, hb, if_true, if_false] at hadd
          exact absurd hb (isFinite_number.mp hadd)
        · exact ⟨isFinite_number.mpr ha, isFinite_number.mpr hb⟩

theorem isFinite_neg (x : Binary f) : (-x).isFinite = x.isFinite := by
  cases x <;> rfl

theorem isFinite_of_sub (h : (x - y).isFinite = true) : x.isFinite = true ∧ y.isFinite = true :=
  isFinite_neg y ▸ isFinite_of_add (show (x + -y).isFinite = true from h)

theorem abs_sub_hasRank (hx : x.abs.HasRank r) (hr : r < f.top) (hy : y.abs.HasRank s)
    (hs : s < f.top) : ∃ q, (x - y).abs.HasRank q ∧ q ≤ f.plus r s := by
  obtain ⟨n, a, rfl, rfl⟩ := abs_hasRank_iff.mp hx
  obtain ⟨m, b, rfl, rfl⟩ := abs_hasRank_iff.mp hy
  rw [number_sub (by omega) (by omega), abs_ofUnits _ _ Nat.one_pos]
  refine ⟨_, hasRank_atRank (f.nearest_le_top _ _), f.nearest_mono Nat.one_pos Nat.one_pos ?_⟩
  have ha := natAbs_signedUnits f n a.val
  have hb := natAbs_signedUnits f m b.val
  omega

theorem one_pos (f : FloatFormat) : 0 < f.one := by
  rw [FloatFormat.one, Nat.one_shiftLeft]
  exact Nat.two_pow_pos _

theorem mul_self_eq (h : x.abs = y.abs) : x * x = y * y := by
  cases x with
  | nan =>
    cases y with
    | nan => rfl
    | number m b => cases h
  | number n a =>
    cases y with
    | nan => cases h
    | number m b =>
      cases h
      show Binary.mul (number n a) (number n a) = Binary.mul (number m a) (number m a)
      simp [Binary.mul]

theorem mul_self_of_top (hx : x.abs.HasRank f.top) : (x * x).HasRank f.top := by
  obtain ⟨n, a, rfl, ha⟩ := abs_hasRank_iff.mp hx
  have htop := f.top_pos
  have hz : ¬(a.val = 0 ∨ a.val = 0) := by omega
  show (Binary.mul (number n a) (number n a)).HasRank _
  unfold Binary.mul
  simp only [ha, true_or, if_true]
  rw [if_neg (ha ▸ hz), bne_self_eq_false]
  exact hasRank_atRank le_rfl

theorem mul_self_of_lt (hx : x.abs.HasRank r) (hr : r < f.top) :
    (x * x).HasRank (f.nearest (f.units r * f.units r) f.one) := by
  obtain ⟨n, a, rfl, rfl⟩ := abs_hasRank_iff.mp hx
  have ht : ¬(a.val = f.top ∨ a.val = f.top) := by omega
  show (Binary.mul (number n a) (number n a)).HasRank _
  unfold Binary.mul
  simp only [ht, if_false, bne_self_eq_false]
  exact hasRank_atRank (f.nearest_le_top _ _)

theorem mul_self_unsigned (x : Binary f) : (x * x).Unsigned := by
  rcases abs_unsigned x with hx | ⟨r, hr⟩
  · cases x with
    | nan => exact Or.inl rfl
    | number n a => cases hx
  · rcases Nat.lt_or_eq_of_le hr.le_top with ht | rfl
    · exact (mul_self_of_lt hr ht).unsigned
    · exact (mul_self_of_top hr).unsigned

theorem isFinite_of_mul (h : (x * y).isFinite = true) : x.isFinite = true ∧ y.isFinite = true := by
  cases x with
  | nan => cases h
  | number n a =>
    cases y with
    | nan => cases h
    | number m b =>
      have hmul : (Binary.mul (number n a) (number m b)).isFinite = true := h
      unfold Binary.mul at hmul
      by_cases ht : a.val = f.top ∨ b.val = f.top
      · simp only [ht, if_true] at hmul
        split at hmul
        · cases hmul
        · simp [infinity, atRank, isFinite] at hmul
      · rw [not_or] at ht
        exact ⟨isFinite_number.mpr ht.1, isFinite_number.mpr ht.2⟩

theorem HasRank.sqrt_zero (hx : x.HasRank 0) : x.sqrt.HasRank 0 := by
  obtain ⟨n, a, rfl, ha, -⟩ := hasRank_iff.mp hx
  unfold Binary.sqrt
  simp only [ha, if_true]
  exact hx

theorem HasRank.sqrt_of_pos (hx : x.HasRank r) (hpos : 0 < r) (hr : r < f.top) :
    x.sqrt.HasRank (f.nearestRoot (f.units r * f.one)) := by
  obtain ⟨n, a, rfl, rfl, hn⟩ := hasRank_iff.mp hx
  have hz : a.val ≠ 0 := by omega
  have hn' : ¬n = true := fun h => hz (hn h)
  have ht : a.val ≠ f.top := by omega
  unfold Binary.sqrt
  simp only [hz, hn', ht, if_false]
  exact hasRank_atRank (f.nearestRoot_le_top _)

theorem HasRank.sqrt (hx : x.HasRank r) (hr : r < f.top) :
    ∃ q, x.sqrt.HasRank q ∧ q ≤ f.nearestRoot (f.units r * f.one) := by
  rcases Nat.eq_zero_or_pos r with rfl | hpos
  · exact ⟨0, hx.sqrt_zero, Nat.zero_le _⟩
  · exact ⟨_, hx.sqrt_of_pos hpos hr, le_rfl⟩

theorem sqrt_of_top (hx : x.HasRank f.top) : x.sqrt = x := by
  obtain ⟨n, a, rfl, ha, hn⟩ := hasRank_iff.mp hx
  have hn' := positive_of_top hn rfl
  unfold Binary.sqrt
  simp only [ha, hn', if_true]
  split <;> simp

theorem Unsigned.sqrt (hx : x.Unsigned) : x.sqrt.Unsigned := by
  rcases hx with rfl | ⟨r, hr⟩
  · exact Or.inl rfl
  · rcases Nat.lt_or_eq_of_le hr.le_top with ht | rfl
    · obtain ⟨q, hq, -⟩ := hr.sqrt ht
      exact hq.unsigned
    · rw [sqrt_of_top hr]
      exact hr.unsigned

theorem Unsigned.sqrt_vanishes_iff (hx : x.Unsigned) : x.sqrt.HasRank 0 ↔ x.HasRank 0 := by
  constructor
  · intro h
    rcases hx with rfl | ⟨r, hr⟩
    · exact absurd h not_hasRank_nan
    · rcases Nat.eq_zero_or_pos r with rfl | hpos
      · exact hr
      · exfalso
        rcases Nat.lt_or_eq_of_le hr.le_top with ht | rfl
        · have hone : f.units 1 * f.units 1 ≤ f.units r * f.one := by
            rw [f.units_one]
            exact Nat.mul_le_mul (f.units_pos hpos) (one_pos f)
          have hroot := f.le_nearestRoot f.top_pos hone
          have hz := (hr.sqrt_of_pos hpos ht).unique h
          omega
        · rw [sqrt_of_top hr] at h
          have hz := hr.unique h
          omega
  · exact HasRank.sqrt_zero

theorem isFinite_of_sqrt (h : x.sqrt.isFinite = true) : x.isFinite = true := by
  cases x with
  | nan => cases h
  | number n a =>
    rw [isFinite_number]
    intro ha
    unfold Binary.sqrt at h
    by_cases hz : a.val = 0
    · simp only [hz, if_true] at h
      exact isFinite_number.mp h ha
    · cases n
      · simp [ha, isFinite] at h
      · simp [hz, isFinite] at h

section AtRank

variable {m n : Bool} {a b : Nat}

theorem atRank_val (negative : Bool) (rank : Fin (f.top + 1)) :
    atRank negative rank.val = number negative rank := by
  have hmin : min rank.val f.top = rank.val := Nat.min_eq_left (Nat.le_of_lt_succ rank.isLt)
  simp only [atRank, hmin]

theorem HasRank.eq_atRank (hx : x.HasRank r) (hpos : 0 < r) : x = atRank false r := by
  obtain ⟨n, a, rfl, rfl, hn⟩ := hasRank_iff.mp hx
  rw [atRank_val]
  cases n with
  | false => rfl
  | true => exact absurd (hn rfl) (Nat.ne_of_gt hpos)

theorem isFinite_atRank (ha : a < f.top) : (atRank n a : Binary f).isFinite = true := by
  simp [atRank, isFinite, Nat.min_eq_left (le_of_lt ha), ha]

theorem mul_atRank (ha : a < f.top) (hb : b < f.top) :
    (atRank n a * atRank m b : Binary f)
      = atRank (n != m) (f.nearest (f.units a * f.units b) f.one) := by
  have ha' : min a f.top = a := Nat.min_eq_left (le_of_lt ha)
  have hb' : min b f.top = b := Nat.min_eq_left (le_of_lt hb)
  show mul _ _ = _
  simp only [mul, atRank, ha', hb', Nat.ne_of_lt ha, Nat.ne_of_lt hb, or_self, if_false]

theorem mul_of_top (ha : a < f.top) (hpos : 0 < a) :
    (atRank n a * atRank m f.top : Binary f) = atRank (n != m) f.top := by
  have ha' : min a f.top = a := Nat.min_eq_left (le_of_lt ha)
  have ht := Nat.ne_of_gt f.top_pos
  show mul _ _ = _
  simp only [mul, infinity, atRank, ha', Nat.min_self, Nat.ne_of_gt hpos, ht, or_true, or_self,
    if_true, if_false]

theorem div_atRank (ha : a < f.top) (hb : b < f.top) (hpos : 0 < b) :
    (atRank n a / atRank m b : Binary f)
      = atRank (n != m) (f.nearest (f.units a * f.one) (f.units b)) := by
  have ha' : min a f.top = a := Nat.min_eq_left (le_of_lt ha)
  have hb' : min b f.top = b := Nat.min_eq_left (le_of_lt hb)
  show div _ _ = _
  simp only [div, atRank, ha', hb', Nat.ne_of_lt ha, Nat.ne_of_lt hb, Nat.ne_of_gt hpos, if_false]

theorem div_of_top (ha : a < f.top) :
    (atRank n a / atRank m f.top : Binary f) = atRank (n != m) 0 := by
  have ha' : min a f.top = a := Nat.min_eq_left (le_of_lt ha)
  show div _ _ = _
  simp only [div, atRank, ha', Nat.min_self, Nat.ne_of_lt ha, if_true, if_false]

end AtRank

variable {g : FloatFormat}

theorem isFinite_of_convert (h : (x.convert g).isFinite = true) : x.isFinite = true := by
  cases x with
  | nan => cases h
  | number n a =>
    unfold convert at h
    by_cases ha : a.val = f.top
    · simp [ha, infinity, atRank, isFinite] at h
    · have := a.isLt
      simp only [isFinite, decide_eq_true_eq]
      omega

theorem abs_convert_hasRank (hx : x.abs.HasRank r) (hr : r < f.top) :
    (x.convert g).abs.HasRank (g.nearest (f.units r * g.one) f.one) := by
  obtain ⟨n, a, rfl, rfl⟩ := abs_hasRank_iff.mp hx
  have ha : a.val ≠ f.top := by omega
  unfold convert
  simp only [ha, if_false]
  exact abs_hasRank_iff.mpr ⟨_, _, rfl, Nat.min_eq_left (g.nearest_le_top _ _)⟩

end Federation.Binary
