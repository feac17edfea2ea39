import Federation.Proofs.Float.Magnitudes

/-!
# Zeros of either sign

Both zeros stand at one place. A sum forgets which of them entered it, up to the sign of a sum that
vanishes itself: so results that stand at one place still do after either kind of zero is added. A
product with a zero is one of the zeros unless the other factor is invalid or infinite.
-/

set_option autoImplicit false

namespace Federation.Binary

variable {f : FloatFormat} {x x' y y' z : Binary f}

theorem position_eq_zero_iff :
    x.position = some 0 ↔ ∃ negative rank, x = number negative rank ∧ rank.val = 0 := by
  cases x with
  | nan => simp [position]
  | number negative rank => cases negative <;> simp [position]

theorem position_of_eq_zero (h : x.eq zero = true) : x.position = some 0 := by
  have hz : (zero : Binary f).position = some 0 := hasRank_zero
  unfold eq compares at h
  rw [hz] at h
  cases hx : x.position with
  | none => simp [hx] at h
  | some p => simpa [hx] using h

theorem position_eq_iff :
    x.position = y.position ↔ x = y ∨ (x.position = some 0 ∧ y.position = some 0) := by
  constructor
  · intro h
    cases x with
    | nan =>
      cases y with
      | nan => exact Or.inl rfl
      | number m b => cases h
    | number n a =>
      cases y with
      | nan => cases h
      | number m b =>
        have hp : (if n then -(a.val : Int) else a.val) = if m then -(b.val : Int) else b.val :=
          Option.some.inj h
        by_cases hz : a.val = 0
        · have hz' : b.val = 0 := by
            split at hp <;> split at hp <;> omega
          exact Or.inr ⟨position_eq_zero_iff.mpr ⟨n, a, rfl, hz⟩,
            position_eq_zero_iff.mpr ⟨m, b, rfl, hz'⟩⟩
        · have hrank : a.val = b.val := by
            split at hp <;> split at hp <;> omega
          have hsign : n = m := by
            cases n <;> cases m <;> simp only [Bool.false_eq_true, if_true, if_false] at hp ⊢ <;>
              omega
          rw [hsign, Fin.ext hrank]
          exact Or.inl rfl
  · rintro (rfl | ⟨hx, hy⟩)
    · rfl
    · rw [hx, hy]

theorem position_atRank_zero (negative : Bool) :
    (atRank negative 0 : Binary f).position = some 0 :=
  hasRank_vanishing negative

theorem position_ofUnits (zeroNegative negative : Bool) (rank : Fin (f.top + 1)) :
    (ofUnits zeroNegative (f.signedUnits negative rank.val) 1 : Binary f).position
      = (number negative rank).position := by
  have hle : rank.val ≤ f.top := Nat.le_of_lt_succ rank.isLt
  unfold ofUnits
  by_cases hz : rank.val = 0
  · have hu : f.signedUnits negative rank.val = 0 := by
      rw [hz, signedUnits_eq fun _ => rfl, f.units_zero]
      rfl
    rw [if_pos hu, position_atRank_zero]
    exact (position_eq_zero_iff.mpr ⟨_, _, rfl, hz⟩).symm
  · have hpos : 0 < f.units rank.val := f.units_pos (Nat.pos_of_ne_zero hz)
    have hsign : decide (f.signedUnits negative rank.val < 0) = negative := by
      cases negative
      · simp [FloatFormat.signedUnits]
      · simpa [FloatFormat.signedUnits] using hpos
    have hrank : f.nearest (f.units rank.val) 1 = rank.val := by
      simpa using f.nearest_units Nat.one_pos hle
    have hne : f.signedUnits negative rank.val ≠ 0 := by
      rw [← Int.natAbs_ne_zero, natAbs_signedUnits]
      omega
    rw [if_neg hne, hsign, natAbs_signedUnits, hrank, atRank_val]

protected theorem add_comm (x y : Binary f) : x + y = y + x := by
  cases x with
  | nan => rw [nan_add, add_nan]
  | number n a =>
    cases y with
    | nan => rw [nan_add, add_nan]
    | number m b =>
      by_cases hfin : a.val ≠ f.top ∧ b.val ≠ f.top
      · rw [number_add hfin.1 hfin.2, number_add hfin.2 hfin.1, Bool.and_comm, Int.add_comm]
      · show Binary.add (number n a) (number m b) = Binary.add (number m b) (number n a)
        unfold Binary.add
        by_cases ha : a.val = f.top
        · by_cases hb : b.val = f.top
          · -- two infinities
            cases n <;> cases m <;> simp [ha, hb, Fin.ext_iff]
          · simp [ha, hb]
        · have hb : b.val = f.top := by omega
          simp [ha, hb]

theorem position_add_zero (x : Binary f) (hz : z.position = some 0) :
    (x + z).position = x.position := by
  obtain ⟨m, b, rfl, hb⟩ := position_eq_zero_iff.mp hz
  have htop := f.top_pos
  cases x with
  | nan => rfl
  | number n a =>
    by_cases ha : a.val = f.top
    · have hsum : number n a + number m b = number n a := by
        show Binary.add (number n a) (number m b) = _
        unfold Binary.add
        simp only [ha, if_true]
        rw [if_neg (by omega)]
      rw [hsum]
    · rw [number_add ha (by omega), hb, signedUnits_eq (r := 0) fun _ => rfl, f.units_zero,
        Int.natCast_zero, Int.add_zero, position_ofUnits]

theorem position_zero_add (x : Binary f) (hz : z.position = some 0) :
    (z + x).position = x.position := by
  rw [Binary.add_comm]
  exact position_add_zero x hz

theorem position_add_congr (hx : x.position = x'.position) (hy : y.position = y'.position) :
    (x + y).position = (x' + y').position := by
  rcases position_eq_iff.mp hx with rfl | ⟨hx, hx'⟩
  · rcases position_eq_iff.mp hy with rfl | ⟨hy, hy'⟩
    · rfl
    · rw [position_add_zero x hy, position_add_zero x hy']
  · rw [position_zero_add y hx, position_zero_add y' hx', hy]

protected theorem mul_comm (x y : Binary f) : x * y = y * x := by
  cases x with
  | nan => cases y <;> rfl
  | number n a =>
    cases y with
    | nan => rfl
    | number m b =>
      show Binary.mul (number n a) (number m b) = Binary.mul (number m b) (number n a)
      simp only [Binary.mul, or_comm, Nat.mul_comm, bne_comm]

theorem position_mul_zero (hx : x.isFinite = true) (hz : z.position = some 0) :
    (x * z).position = some 0 := by
  obtain ⟨m, b, rfl, hb⟩ := position_eq_zero_iff.mp hz
  cases x with
  | nan => cases hx
  | number n a =>
    have ha := isFinite_number.mp hx
    have hlt : a.val < f.top := by
      have := a.isLt
      omega
    rw [← atRank_val, ← atRank_val, hb, mul_atRank hlt f.top_pos, f.units_zero, Nat.mul_zero,
      f.nearest_zero (one_pos f)]
    exact position_atRank_zero _

theorem position_zero_mul (hx : x.isFinite = true) (hz : z.position = some 0) :
    (z * x).position = some 0 := by
  rw [Binary.mul_comm]
  exact position_mul_zero hx hz

theorem one_single : (Scalar.one : Single) = atRank false (Scalar.one : Single).rank ∧
    0 < (Scalar.one : Single).rank ∧ (Scalar.one : Single).rank < FloatFormat.single.top ∧
    FloatFormat.single.units (Scalar.one : Single).rank = FloatFormat.single.one := by
  decide

theorem one_mul_single (y : Single) : Scalar.one * y = y := by
  obtain ⟨hone, hpos, htop, hu⟩ := one_single
  cases y with
  | nan => rw [hone]; rfl
  | number m b =>
    rw [hone, ← atRank_val]
    by_cases hb : b.val = FloatFormat.single.top
    · rw [hb, mul_of_top htop hpos]
      cases m <;> rfl
    · have hlt : b.val < FloatFormat.single.top := by
        have := b.isLt
        omega
      rw [mul_atRank htop hlt, hu, Nat.mul_comm, FloatFormat.nearest_units _ (one_pos _)
        (Nat.le_of_lt hlt)]
      cases m <;> rfl

theorem one_add_zero_single {z : Single} (hz : z.position = some 0) :
    Scalar.one + z = Scalar.one := by
  obtain ⟨m, b, rfl, hb⟩ := position_eq_zero_iff.mp hz
  have hzero : number m b = (atRank m 0 : Single) := by rw [← hb, atRank_val]
  rw [hzero]
  cases m <;> decide

end Federation.Binary
