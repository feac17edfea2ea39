import Federation.Decimal.Shortest
import Federation.Proofs.Float.Rounding

/-!
# What a shortest decimal is

The decimal that is shown for a number lies between the two borders of its rank, at most one power
of ten away from the number. A larger power would have done if it were less than half a step of the
grid, so the decimal has few digits.
-/

set_option autoImplicit false

namespace Federation.Decimal

theorem tens_eq (k : Nat) : tens k = 10 ^ k := rfl

theorem tens_add (j k : Nat) : tens (j + k) = tens j * tens k := Nat.pow_add 10 j k

theorem tens_succ (k : Nat) : tens (k + 1) = 10 * tens k := Nat.pow_succ'

theorem tens_pos (k : Nat) : 0 < tens k := Nat.pow_pos (by decide)

theorem tens_mono {j k : Nat} (h : j ≤ k) : tens j ≤ tens k := Nat.pow_le_pow_right (by decide) h

namespace Interval

variable {i : Interval} {tie : Tie} {n m unit power : Nat}

theorem contains_iff : i.contains n = true ↔
    (i.low < n ∨ (i.low = n ∧ i.closed = true)) ∧
      (n < i.high ∨ (n = i.high ∧ i.closed = true)) := by
  unfold contains
  cases i.closed <;> simp
  omega

/-- A multiple of a power of ten in the interval, no further from the middle than that power. -/
structure Shows (i : Interval) (m power : Nat) : Prop where
  contains : i.contains (m * tens power) = true
  above : i.mid ≤ m * tens power + tens power
  below : m * tens power ≤ i.mid + tens power

theorem multiple?_some (h : i.multiple? tie (tens power) = some m) : i.Shows m power := by
  have hp := tens_pos power
  have hd := Nat.div_add_mod' i.mid (tens power)
  have hm := Nat.mod_lt i.mid hp
  have hs : (i.mid / tens power + 1) * tens power = i.mid / tens power * tens power + tens power :=
    Nat.succ_mul _ _
  have hdown : i.contains (i.mid / tens power * tens power) = true →
      i.Shows (i.mid / tens power) power := fun hc => ⟨hc, by omega, by omega⟩
  have hup : i.contains ((i.mid / tens power + 1) * tens power) = true →
      i.Shows (i.mid / tens power + 1) power := fun hc => ⟨hc, by omega, by omega⟩
  unfold multiple? at h
  simp only [Bool.and_eq_true] at h
  split at h
  · rename_i hb
    split at h
    · cases h
      exact hdown hb.1
    · cases h
      exact hup hb.2
    · cases h
      rcases Nat.mod_two_eq_zero_or_one (i.mid / tens power) with he | he
      · rw [he]
        exact hdown hb.1
      · rw [he]
        exact hup hb.2
    · cases h
      exact hup hb.2
  · split at h
    · cases h
      exact hdown ‹_›
    · split at h
      · cases h
        exact hup ‹_›
      · cases h

theorem multiple?_none (hl : i.low < i.mid) (h : i.multiple? tie unit = none) (hu : 0 < unit) :
    i.high ≤ i.mid + unit := by
  have hd := Nat.div_add_mod' i.mid unit
  have hm := Nat.mod_lt i.mid hu
  have hs : (i.mid / unit + 1) * unit = i.mid / unit * unit + unit := Nat.succ_mul _ _
  by_contra hc
  have hup : i.contains ((i.mid / unit + 1) * unit) = true := by
    rw [contains_iff]
    omega
  unfold multiple? at h
  simp only [hup, Bool.and_true, if_true] at h
  split at h
  · split at h <;> cases h
  · cases h

theorem coarsest_spec (tie : Tie) (hl : i.low < i.mid) (hh : i.mid < i.high) (power : Nat) :
    i.Shows (i.coarsest tie power).1 (i.coarsest tie power).2 ∧
      ((i.coarsest tie power).2 < power →
        i.high ≤ i.mid + tens ((i.coarsest tie power).2 + 1)) ∧
      (i.coarsest tie power).2 ≤ power := by
  induction power with
  | zero =>
    refine ⟨⟨?_, ?_, ?_⟩, ?_, ?_⟩ <;> simp [coarsest, tens, contains_iff, hl, hh]
  | succ power ih =>
    unfold coarsest
    cases h : i.multiple? tie (tens (power + 1)) with
    | some m => exact ⟨multiple?_some h, fun hlt => absurd hlt (lt_irrefl _), le_rfl⟩
    | none =>
      obtain ⟨hs, hn, hle⟩ := ih
      refine ⟨hs, fun _ => ?_, by simp only; omega⟩
      simp only
      rcases Nat.lt_or_eq_of_le hle with hlt | heq
      · exact hn hlt
      · rw [heq]
        exact multiple?_none hl h (tens_pos _)

end Interval

section Shortest

variable {f : FloatFormat} {rank : Nat}

theorem interval_low (f : FloatFormat) (rank : Nat) :
    (interval f rank).low = f.border rank * 5 ^ (f.scale + 1) := rfl

theorem interval_high (f : FloatFormat) (rank : Nat) :
    (interval f rank).high = f.border (rank + 1) * 5 ^ (f.scale + 1) := rfl

theorem interval_mid (f : FloatFormat) (rank : Nat) :
    (interval f rank).mid = 2 * f.units rank * 5 ^ (f.scale + 1) := rfl

theorem low_lt_mid (h : 0 < rank) : (interval f rank).low < (interval f rank).mid := by
  have hu : f.units (rank - 1) < f.units rank := f.units_strictMono (by omega)
  rw [interval_low, interval_mid, FloatFormat.border]
  exact Nat.mul_lt_mul_of_pos_right (by omega) (Nat.pow_pos (by decide))

theorem interval_high_eq (f : FloatFormat) (rank : Nat) :
    (interval f rank).high = (interval f rank).mid + 2 ^ f.step rank * 5 ^ (f.scale + 1) := by
  rw [interval_high, interval_mid, FloatFormat.border_succ, f.units_succ, ← Nat.add_mul]
  congr 1
  omega

theorem mid_lt_high (f : FloatFormat) (rank : Nat) :
    (interval f rank).mid < (interval f rank).high := by
  rw [interval_high_eq]
  exact Nat.lt_add_of_pos_right (Nat.mul_pos (Nat.two_pow_pos _) (Nat.pow_pos (by decide)))

theorem half_step_le_mid (h : 0 < rank) :
    2 ^ f.step rank * 5 ^ (f.scale + 1) ≤ (interval f rank).mid := by
  obtain ⟨q, hq, -⟩ := f.units_eq_step rank
  have hu : 0 < f.units rank := f.units_pos h
  have hpos : 0 < q := by
    apply Nat.pos_of_ne_zero
    rintro rfl
    omega
  rw [interval_mid, hq]
  refine Nat.mul_le_mul_right _ ?_
  calc 2 ^ f.step rank = 1 * 2 ^ f.step rank := (Nat.one_mul _).symm
    _ ≤ 2 * (q * 2 ^ f.step rank) := by
      rw [← Nat.mul_assoc]
      exact Nat.mul_le_mul_right _ (by omega)

theorem lt_tens_log2 (n : Nat) : n < tens (n.log2 / 3 + 1) := by
  calc n < 2 ^ (n.log2 + 1) := Nat.lt_log2_self
    _ ≤ 2 ^ (3 * (n.log2 / 3 + 1)) := Nat.pow_le_pow_right (by decide) (by omega)
    _ = 8 ^ (n.log2 / 3 + 1) := Nat.pow_mul 2 3 _
    _ ≤ tens (n.log2 / 3 + 1) := Nat.pow_le_pow_left (by decide) _

/-- The shortest decimal in whole powers of ten, which a larger power would have replaced if it were
less than half a step. -/
theorem shortest_spec (f : FloatFormat) (tie : Tie) (h : 0 < rank) :
    ∃ power : Nat, (shortest f tie rank).exponent = power - (f.scale + 1 : Int) ∧
      (interval f rank).Shows (shortest f tie rank).significand power ∧
      2 ^ f.step rank * 5 ^ (f.scale + 1) ≤ tens (power + 1) := by
  have hne : rank ≠ 0 := by omega
  obtain ⟨hs, hn, hle⟩ := Interval.coarsest_spec tie (low_lt_mid (f := f) h)
    (mid_lt_high f rank) ((interval f rank).mid.log2 / 3 + 1)
  have he := interval_high_eq f rank
  rw [shortest, if_neg hne]
  refine ⟨_, rfl, hs, ?_⟩
  generalize (interval f rank).coarsest tie ((interval f rank).mid.log2 / 3 + 1) = d at *
  rcases Nat.lt_or_eq_of_le hle with hlt | heq
  · have := hn hlt
    omega
  · -- the search starts at a power that is larger than the number itself
    have hh := half_step_le_mid (f := f) h
    have hl := lt_tens_log2 (interval f rank).mid
    rw [heq]
    have ht : tens ((interval f rank).mid.log2 / 3 + 1)
        ≤ tens ((interval f rank).mid.log2 / 3 + 1 + 1) := tens_mono (Nat.le_succ _)
    omega

theorem significand_pos (f : FloatFormat) (tie : Tie) (h : 0 < rank) :
    0 < (shortest f tie rank).significand := by
  obtain ⟨power, -, hs, -⟩ := shortest_spec f tie h
  have hlow : 0 < (interval f rank).low := by
    have hu : f.units (rank - 1) < f.units rank := f.units_strictMono (by omega)
    rw [interval_low, FloatFormat.border]
    exact Nat.mul_pos (by omega) (Nat.pow_pos (by decide))
  have hc := (Interval.contains_iff.mp hs.contains).1
  apply Nat.pos_of_ne_zero
  intro hz
  rw [hz, Nat.zero_mul] at hc
  omega

theorem significand_le (f : FloatFormat) (tie : Tie) (rank : Nat) :
    (shortest f tie rank).significand ≤ 10 * 2 ^ (f.precision + 1) := by
  rcases Nat.eq_zero_or_pos rank with rfl | h
  · exact Nat.zero_le _
  obtain ⟨power, -, hs, hstep⟩ := shortest_spec f tie h
  have hp := tens_pos power
  have hmid : (interval f rank).mid < 2 ^ (f.precision + 1) * (10 * tens power) := by
    have hu : f.units rank < 2 ^ f.precision * 2 ^ f.step rank := by
      obtain ⟨hl, hlt, -⟩ := f.step_spec rank
      rw [← f.two_mul_binade, FloatFormat.units, Nat.shiftLeft_eq]
      exact Nat.mul_lt_mul_of_pos_right (by omega) (Nat.two_pow_pos _)
    calc (interval f rank).mid
        < 2 * (2 ^ f.precision * 2 ^ f.step rank) * 5 ^ (f.scale + 1) := by
          rw [interval_mid]
          exact Nat.mul_lt_mul_of_pos_right (by omega) (Nat.pow_pos (by decide))
      _ = 2 ^ (f.precision + 1) * (2 ^ f.step rank * 5 ^ (f.scale + 1)) := by
          rw [Nat.pow_succ]
          ring
      _ ≤ 2 ^ (f.precision + 1) * tens (power + 1) := Nat.mul_le_mul_left _ hstep
      _ = 2 ^ (f.precision + 1) * (10 * tens power) := by rw [tens_succ]
  have hm : (shortest f tie rank).significand * tens power
      < (10 * 2 ^ (f.precision + 1) + 1) * tens power := by
    have hb := hs.below
    have he : (10 * 2 ^ (f.precision + 1) + 1) * tens power
        = 2 ^ (f.precision + 1) * (10 * tens power) + tens power := by ring
    omega
  exact Nat.lt_succ_iff.mp (Nat.lt_of_mul_lt_mul_right hm)

end Shortest

end Federation.Decimal
