import Federation.Proofs.Json.Rescaling
import Federation.Proofs.Json.Scaling

/-!
# Numbers of single precision read back

The decimal that is written for a number of single precision is scaled in double precision and then
narrowed. It lies between the borders of the number, so it is enough that scaling keeps every
decimal on its side of every border. A decimal clearly on one side stays there, a border itself is
scaled without an error, and the three decimals that are neither are computed.
-/

set_option autoImplicit false

namespace Federation.Json.Number

open FloatFormat (double single halfway)
open Decimal (tens tens_eq halfStep leastPower closeCalls)

variable {rank power exact wide m d : Nat}

theorem compare_congr {a b a' b' : Nat} (hlt : a < b ↔ a' < b') (heq : a = b ↔ a' = b') :
    compare a b = compare a' b' := by
  show compareOfLessAndEq a b = compareOfLessAndEq a' b'
  simp only [compareOfLessAndEq, hlt, heq]

/-- A number of double precision lies to the side of a border on which a decimal lies, which is
given in units of `10 ^ (-150)`. -/
def SameSide (wide exact rank : Nat) : Prop :=
  compare wide (halfway rank) = compare exact (single.border (rank + 1) * 5 ^ 150)

theorem SameSide.le (h : SameSide wide exact rank)
    (hc : (Decimal.interval single rank).contains exact = true) : wide ≤ halfway rank := by
  have hle : exact ≤ single.border (rank + 1) * 5 ^ 150 := by
    have hhigh := (Decimal.Interval.contains_iff.mp hc).2
    rw [Decimal.interval_high] at hhigh
    exact hhigh.elim le_of_lt fun he => le_of_eq he.1
  rw [← Nat.isLE_compare] at hle ⊢
  rwa [h]

theorem narrow_of_sameSide (h : rank < single.top)
    (hc : (Decimal.interval single rank).contains exact = true)
    (hl : 0 < rank → SameSide wide exact (rank - 1)) (hu : SameSide wide exact rank) :
    single.nearest (double.units wide * single.one) double.one = rank := by
  obtain ⟨hlow, hhigh⟩ := Decimal.Interval.contains_iff.mp hc
  have hclosed : (Decimal.interval single rank).closed = true → rank % 2 = 0 := beq_iff_eq.mp
  refine FloatFormat.narrow_eq h (fun hr => ?_) ?_
  · have hside := hl hr
    rw [SameSide, Nat.sub_add_cancel hr] at hside
    rcases hlow with hlt | ⟨heq, hcl⟩
    · exact Or.inl (Nat.compare_eq_gt.mp (hside.trans (Nat.compare_eq_gt.mpr hlt)))
    · have he := Nat.compare_eq_eq.mp (hside.trans (Nat.compare_eq_eq.mpr heq.symm))
      exact Or.inr ⟨he.symm, hclosed hcl⟩
  · rcases hhigh with hlt | ⟨heq, hcl⟩
    · exact Or.inl (Nat.compare_eq_lt.mp (hu.trans (Nat.compare_eq_lt.mpr hlt)))
    · exact Or.inr ⟨Nat.compare_eq_eq.mp (hu.trans (Nat.compare_eq_eq.mpr heq)), hclosed hcl⟩

theorem units_halfway_scaled (rank : Nat) :
    double.units (halfway rank) * 5 ^ 150 = single.border (rank + 1) * 5 ^ 150 * 2 ^ 924 := by
  rw [FloatFormat.units_halfway, Nat.mul_right_comm]

theorem sameSide_whole (hu : double.units wide = d * double.one) (rank : Nat) :
    SameSide wide (d * tens 150) rank := by
  have hw : double.units wide * 5 ^ 150 = d * tens 150 * 2 ^ 924 := by
    rw [hu, Nat.mul_assoc, ← tens_150, Nat.mul_assoc]
  have hh := units_halfway_scaled rank
  have hfive : 0 < 5 ^ 150 := Nat.pow_pos (by decide)
  have htwo : 0 < double.one := one_pos
  have hmono := double.units_strictMono
  apply compare_congr
  · rw [← hmono.lt_iff_lt, ← Nat.mul_lt_mul_right hfive, hw, hh,
      Nat.mul_lt_mul_right (Nat.pow_pos (by decide))]
  · rw [← hmono.injective.eq_iff, ← Nat.mul_left_inj (Nat.ne_of_gt hfive), hw, hh,
      Nat.mul_left_inj (Nat.ne_of_gt (Nat.pow_pos (by decide)))]

theorem pow_add_mul (j k n : Nat) : 2 ^ (j + k) * n = 2 ^ j * n * 2 ^ k := by
  rw [Nat.pow_add, Nat.mul_right_comm]

theorem shift_halfStep (step : Nat) : 2 ^ (step + 924) * 5 ^ 150 = halfStep step * 2 ^ 924 :=
  pow_add_mul step 924 (5 ^ 150)

section Clear

variable {step num den half unit twos fives : Nat}

theorem clear_quotient_below (hu : unit * fives = half * twos) (hf : 0 < fives)
    (hle : (2 ^ 53 - 1) * (num * fives) ≤ 2 ^ 53 * (exact * twos * den)) (hm : m < 2 ^ 25)
    (h : 2 ^ 27 * exact + half ≤ 2 ^ 27 * (m * half)) :
    2 ^ 28 * num + unit * den ≤ 2 ^ 28 * (m * unit * den) := by
  have hclear : 2 ^ 27 * (exact * twos * den) + unit * den * fives
      ≤ 2 ^ 27 * (m * (unit * den * fives)) := by
    calc 2 ^ 27 * (exact * twos * den) + unit * den * fives
        = (2 ^ 27 * exact + half) * twos * den := by
          rw [Nat.mul_right_comm unit, hu]
          ring
      _ ≤ 2 ^ 27 * (m * half) * twos * den :=
          Nat.mul_le_mul_right _ (Nat.mul_le_mul_right _ h)
      _ = 2 ^ 27 * (m * (unit * den * fives)) := by
          rw [Nat.mul_right_comm unit, hu]
          ring
  have hbits : m * (unit * den * fives) ≤ (2 ^ 25 - 1) * (unit * den * fives) :=
    Nat.mul_le_mul_right _ (by omega)
  have hgoal : (2 ^ 28 * num + unit * den) * fives ≤ 2 ^ 28 * (m * unit * den) * fives := by
    have hl : (2 ^ 28 * num + unit * den) * fives
        = 2 ^ 28 * (num * fives) + unit * den * fives := by ring
    have hr : 2 ^ 28 * (m * unit * den) * fives = 2 ^ 28 * (m * (unit * den * fives)) := by ring
    omega
  exact Nat.le_of_mul_le_mul_right hgoal hf

theorem clear_quotient_above (hu : unit * fives = half * twos) (hf : 0 < fives)
    (hge : (2 ^ 53 - 1) * (exact * twos * den) ≤ 2 ^ 53 * (num * fives)) (hm : m < 2 ^ 25)
    (h : 2 ^ 27 * (m * half) + half ≤ 2 ^ 27 * exact) :
    2 ^ 28 * (m * unit * den) + unit * den ≤ 2 ^ 28 * num := by
  have hclear : 2 ^ 27 * (m * (unit * den * fives)) + unit * den * fives
      ≤ 2 ^ 27 * (exact * twos * den) := by
    calc 2 ^ 27 * (m * (unit * den * fives)) + unit * den * fives
        = (2 ^ 27 * (m * half) + half) * twos * den := by
          rw [Nat.mul_right_comm unit, hu]
          ring
      _ ≤ 2 ^ 27 * exact * twos * den :=
          Nat.mul_le_mul_right _ (Nat.mul_le_mul_right _ h)
      _ = 2 ^ 27 * (exact * twos * den) := by ring
  have hbits : m * (unit * den * fives) ≤ (2 ^ 25 - 1) * (unit * den * fives) :=
    Nat.mul_le_mul_right _ (by omega)
  have hgoal : (2 ^ 28 * (m * unit * den) + unit * den) * fives ≤ 2 ^ 28 * num * fives := by
    have hl : (2 ^ 28 * (m * unit * den) + unit * den) * fives
        = 2 ^ 28 * (m * (unit * den * fives)) + unit * den * fives := by ring
    have hr : 2 ^ 28 * num * fives = 2 ^ 28 * (num * fives) := by ring
    omega
  exact Nat.le_of_mul_le_mul_right hgoal hf

theorem nearest_lt_of_clear (hd : 0 < den) (hm : m < 2 ^ 25)
    (ht : double.rankBelow (m * 2 ^ (step + 924)) ≤ double.top)
    (h : 2 ^ 28 * num + 2 ^ (step + 924) * den ≤ 2 ^ 28 * (m * 2 ^ (step + 924) * den)) :
    double.nearest num den < double.rankBelow (m * 2 ^ (step + 924)) := by
  have hp : double.precision - 25 = 28 := rfl
  apply double.nearest_lt_of_clear hd hm (by decide) (by omega) ht
  rwa [hp]

theorem lt_nearest_of_clear (hd : 0 < den) (hm : m < 2 ^ 25)
    (ht : double.rankBelow (m * 2 ^ (step + 924)) < double.top)
    (h : 2 ^ 28 * (m * 2 ^ (step + 924) * den) + 2 ^ (step + 924) * den ≤ 2 ^ 28 * num) :
    double.rankBelow (m * 2 ^ (step + 924)) < double.nearest num den := by
  have hp : double.precision - 25 = 28 := rfl
  apply double.lt_nearest_of_clear hd hm (by decide) (by omega) ht
  rwa [hp]

end Clear

theorem pow_five_le_of_mul_eq {c e k j : Nat} (hc : 0 < c) (hk : 22 ≤ k)
    (h : c * 2 ^ j = e * 5 ^ k) : 5 ^ 22 ≤ c := by
  have hdvd : 5 ^ 22 ∣ c * 2 ^ j := by
    rw [h]
    exact Dvd.dvd.mul_left (Nat.pow_dvd_pow 5 hk) e
  have hcop : Nat.Coprime (5 ^ 22) (2 ^ j) := Nat.Coprime.pow 22 j (by decide)
  exact Nat.le_of_dvd hc (hcop.dvd_of_dvd_mul_right hdvd)

theorem power_of_on_border {step : Nat} (hd : d < 5 ^ 22) (hm : m < 5 ^ 22) (hpos : 0 < m)
    (h : d * tens power = m * halfStep step) : 128 ≤ power ∧ power ≤ 172 := by
  have hsplit : d * 2 ^ power * 5 ^ power = m * 2 ^ step * 5 ^ 150 := by
    rw [halfStep, tens_eq, show (10 : Nat) = 2 * 5 from rfl, Nat.mul_pow] at h
    rw [Nat.mul_assoc, h, Nat.mul_assoc]
  have hfives : ∀ k, 0 < 5 ^ k := fun k => Nat.pow_pos (by decide)
  constructor
  · by_contra hc
    have he : d * 2 ^ power = m * 2 ^ step * 5 ^ (150 - power) := by
      apply Nat.eq_of_mul_eq_mul_right (hfives power)
      rw [hsplit, Nat.mul_assoc (m * 2 ^ step), ← Nat.pow_add, Nat.sub_add_cancel (by omega)]
    have hdpos : 0 < d := by
      apply Nat.pos_of_ne_zero
      rintro rfl
      have := Nat.mul_pos (Nat.mul_pos hpos (Nat.two_pow_pos step)) (hfives (150 - power))
      omega
    exact absurd (pow_five_le_of_mul_eq hdpos (by omega) he) (Nat.not_le.mpr hd)
  · by_contra hc
    have he : m * 2 ^ step = d * 2 ^ power * 5 ^ (power - 150) := by
      apply Nat.eq_of_mul_eq_mul_right (hfives 150)
      rw [← hsplit, Nat.mul_assoc (d * 2 ^ power), ← Nat.pow_add, Nat.sub_add_cancel (by omega)]
    exact absurd (pow_five_le_of_mul_eq hpos (by omega) he) (Nat.not_le.mpr hm)

theorem readRank_of_on_border {step : Nat} (hd : d < 5 ^ 22) (hm : m < 2 ^ 25) (hpos : 0 < m)
    (ht : double.rankBelow (m * 2 ^ (step + 924)) ≤ double.top)
    (h : d * tens power = m * halfStep step) :
    readRank d (power - 150) = double.rankBelow (m * 2 ^ (step + 924)) := by
  obtain ⟨hlow, hhigh⟩ := power_of_on_border hd (by omega) hpos h
  have hden : 0 < (quotient d (power - 150)).2 := quotient_pos (by omega)
  have hnum : (quotient d (power - 150)).1
      = m * 2 ^ (step + 924) * (quotient d (power - 150)).2 := by
    have hx := shift_halfStep step
    have hfive : 0 < 5 ^ 150 := Nat.pow_pos (by decide)
    obtain ⟨common, k, -, hk, hq⟩ := quotient_eq d power
    rw [factor_eq (hk hlow hhigh)] at hq
    have he : (quotient d (power - 150)).1 * 5 ^ 150
        = d * tens power * 2 ^ 924 * (quotient d (power - 150)).2 := by
      rcases hq with ⟨hn, hd⟩ | ⟨hn, hd⟩ <;> rw [hn, hd]
    apply Nat.eq_of_mul_eq_mul_right hfive
    rw [he, h]
    generalize (5 : Nat) ^ 150 = fives at *
    generalize (2 : Nat) ^ 924 = twos at *
    generalize 2 ^ (step + 924) = unit at *
    calc m * halfStep step * twos * (quotient d (power - 150)).2
        = m * (halfStep step * twos) * (quotient d (power - 150)).2 := by ring
      _ = m * unit * (quotient d (power - 150)).2 * fives := by
        rw [← hx]
        ring
  rw [readRank, hnum]
  exact double.nearest_exact hden (lt_of_lt_of_le hm (by decide)) ht

theorem sameSide_closeCalls : ∀ c ∈ closeCalls, c.2.1 % 10 ≠ 0 ∧
    compare (readRank c.2.1 (leastPower c.1 - 150)) (double.rankBelow (c.2.2 * 2 ^ (c.1 + 924)))
      = compare (c.2.1 * tens (leastPower c.1)) (c.2.2 * halfStep c.1) := by
  decide +kernel

/-- A close call has no factor ten in it, so its decimal is scaled by the least power. -/
theorem sameSide_of_closeCall {step m : Nat} (hle : leastPower step ≤ power)
    (h : (step, d * 10 ^ (power - leastPower step), m) ∈ closeCalls) :
    compare (readRank d (power - 150)) (double.rankBelow (m * 2 ^ (step + 924)))
      = compare (d * tens power) (m * halfStep step) := by
  obtain ⟨hten, hc⟩ := sameSide_closeCalls _ h
  have hzero : power - leastPower step = 0 := by
    by_contra hne
    apply hten
    rw [← Nat.succ_pred_eq_of_ne_zero hne, Nat.pow_succ, ← Nat.mul_assoc]
    exact Nat.mul_mod_left _ _
  have hpower : power = leastPower step := by omega
  rw [hzero, Nat.pow_zero, Nat.mul_one] at hc
  rw [hpower]
  exact hc

theorem step_lt_of_lt_top (h : rank < single.top) : single.step rank < 254 := by
  have ht : single.top = 255 * single.binade := by decide
  rw [ht] at h
  have := (Nat.div_lt_iff_lt_mul single.binade_pos).mpr h
  unfold FloatFormat.step
  omega

theorem sameSide_readRank (hr : rank < single.top) (hd : d < 5 ^ 22) (hp : power ≤ 458)
    (hfar : (2 ^ 27 - 1) * halfStep (single.step rank) ≤ 2 ^ 27 * tens power ∨
      2 ^ 27 * (d * tens power) + halfStep (single.step rank)
        ≤ 2 ^ 27 * (single.border (rank + 1) * 5 ^ 150) ∨
      2 ^ 27 * (single.border (rank + 1) * 5 ^ 150) + halfStep (single.step rank)
        ≤ 2 ^ 27 * (d * tens power)) :
    SameSide (readRank d (power - 150)) (d * tens power) rank := by
  have hstep := step_lt_of_lt_top hr
  obtain ⟨m, hm, hodd, hlt, hlow, hh⟩ := FloatFormat.halfway_eq rank
  have htop := FloatFormat.halfway_lt_top hr
  have hborder : single.border (rank + 1) * 5 ^ 150 = m * halfStep (single.step rank) := by
    rw [hm, halfStep, Nat.mul_assoc]
  unfold SameSide
  rw [hborder] at hfar ⊢
  rw [hh] at htop ⊢
  generalize single.step rank = step at *
  have hden : 0 < (quotient d (power - 150)).2 := quotient_pos (by omega)
  have hnear := near_quotient d hp
  have hfive : 0 < 5 ^ 150 := Nat.pow_pos (by decide)
  have hsplit : d * tens power = m * halfStep step ∨
      2 ^ 27 * (d * tens power) + halfStep step ≤ 2 ^ 27 * (m * halfStep step) ∨
      2 ^ 27 * (m * halfStep step) + halfStep step ≤ 2 ^ 27 * (d * tens power) ∨
      (leastPower step ≤ power ∧ (step, d * 10 ^ (power - leastPower step), m) ∈ closeCalls) := by
    rcases hfar with hgap | hbelow | habove
    · exact Decimal.gap_to_border hstep hodd hlt hlow hgap
    · exact Or.inr (Or.inl hbelow)
    · exact Or.inr (Or.inr (Or.inl habove))
  have hpos : 0 < halfStep step := Nat.mul_pos (Nat.two_pow_pos _) hfive
  rcases hsplit with heq | hbelow | habove | ⟨hle, hclose⟩
  · have hw := readRank_of_on_border hd hlt (by omega) (le_of_lt htop) heq
    exact (Nat.compare_eq_eq.mpr hw).trans (Nat.compare_eq_eq.mpr heq).symm
  · have hw := nearest_lt_of_clear hden hlt (le_of_lt htop)
      (clear_quotient_below (shift_halfStep step) hfive hnear.le hlt hbelow)
    have hlt : d * tens power < m * halfStep step := by omega
    exact (Nat.compare_eq_lt.mpr hw).trans (Nat.compare_eq_lt.mpr hlt).symm
  · have hw := lt_nearest_of_clear hden hlt htop
      (clear_quotient_above (shift_halfStep step) hfive hnear.ge hlt habove)
    have hlt : m * halfStep step < d * tens power := by omega
    exact (Nat.compare_eq_gt.mpr hw).trans (Nat.compare_eq_gt.mpr hlt).symm
  · exact sameSide_of_closeCall hle hclose

theorem far_above (hs : (Decimal.interval single rank).Shows d power) :
    (2 ^ 27 - 1) * halfStep (single.step rank) ≤ 2 ^ 27 * tens power ∨
      2 ^ 27 * (d * tens power) + halfStep (single.step rank)
        ≤ 2 ^ 27 * (single.border (rank + 1) * 5 ^ 150) := by
  have hhigh : single.border (rank + 1) * 5 ^ 150
      = (Decimal.interval single rank).mid + halfStep (single.step rank) :=
    Decimal.interval_high_eq single rank
  have hb := hs.below
  rw [hhigh]
  omega

theorem far_below (hpos : 0 < rank) (hs : (Decimal.interval single rank).Shows d power) :
    (2 ^ 27 - 1) * halfStep (single.step (rank - 1)) ≤ 2 ^ 27 * tens power ∨
      2 ^ 27 * (single.border rank * 5 ^ 150) + halfStep (single.step (rank - 1))
        ≤ 2 ^ 27 * (d * tens power) := by
  have hlow : (Decimal.interval single rank).mid
      = single.border rank * 5 ^ 150 + halfStep (single.step (rank - 1)) := by
    have hu := single.units_succ (rank - 1)
    rw [Nat.sub_add_cancel hpos] at hu
    have hm : (Decimal.interval single rank).mid = 2 * single.units rank * 5 ^ 150 := rfl
    rw [hm, FloatFormat.border, hu, halfStep, ← Nat.add_mul]
    congr 1
    omega
  have ha := hs.above
  omega

theorem power_le (h : rank < single.top) (hd : 0 < d)
    (hs : (Decimal.interval single rank).Shows d power) : power ≤ 458 := by
  have hborder : single.border (rank + 1) ≤ single.border single.top := single.border_mono h
  have hlast : single.border single.top * 5 ^ 150 < tens 459 := by decide +kernel
  have hhigh : d * tens power ≤ single.border (rank + 1) * 5 ^ 150 := by
    have hc := (Decimal.Interval.contains_iff.mp hs.contains).2
    rw [Decimal.interval_high] at hc
    exact hc.elim le_of_lt fun he => le_of_eq he.1
  by_contra hgt
  have hmono : tens 459 ≤ tens power := Decimal.tens_mono (by omega)
  have hle : tens power ≤ d * tens power := Nat.le_mul_of_pos_left _ hd
  have hb := Nat.mul_le_mul_right (5 ^ 150) hborder
  omega

/-- What a reader makes of a significand and a power of ten narrows to a number. -/
def ReadsAs (significand : Nat) (exponent : Int) (rank : Nat) : Prop :=
  ∃ wide < double.top, scale? significand exponent = some (.atRank false wide) ∧
    single.nearest (double.units wide * single.one) double.one = rank

theorem readsAs_of_shows (hpos : 0 < rank) (h : rank < single.top) (hd : 0 < d)
    (hle : d ≤ 10 * 2 ^ 25) (hs : (Decimal.interval single rank).Shows d power) :
    ReadsAs d (power - 150) rank := by
  have hp := power_le h hd hs
  have hsmall : d < 5 ^ 22 := by omega
  have hu : SameSide (readRank d (power - 150)) (d * tens power) rank :=
    sameSide_readRank h hsmall hp ((far_above hs).imp id Or.inl)
  have hl : 0 < rank → SameSide (readRank d (power - 150)) (d * tens power) (rank - 1) := by
    intro hr
    have hfar := far_below hr hs
    refine sameSide_readRank (by omega) hsmall hp ?_
    rw [Nat.sub_add_cancel hr]
    exact hfar.imp id Or.inr
  have htop : readRank d (power - 150) < double.top :=
    lt_of_le_of_lt (hu.le hs.contains) (FloatFormat.halfway_lt_top h)
  refine ⟨_, htop, scale?_eq (by omega) (by omega) (by omega) htop, ?_⟩
  exact narrow_of_sameSide h hs.contains hl hu

theorem readsAs_whole (h : rank < single.top) (hd : d < tens 13)
    (hc : (Decimal.interval single rank).contains (d * tens 150) = true) :
    ReadsAs (10 * d) (-1) rank := by
  have ht : 10 * tens 13 < 2 ^ 53 := by decide
  have hsmall : d < 2 ^ 53 := by omega
  obtain ⟨hlt, hunits⟩ := nearest_whole hsmall
  have hread : readRank (10 * d) (-1) = double.nearest (d * double.one) 1 := by
    have hfactor : factor 1 = 10 * double.one := factor_eq (by decide)
    have hden : 0 < 10 * double.one := by
      have := one_pos
      omega
    have hq : quotient (10 * d) (-1) = (d * double.one * (10 * double.one), 10 * double.one) := by
      rw [quotient, if_neg (by decide), ← hfactor]
      refine Prod.ext ?_ rfl
      rw [hfactor]
      ring
    rw [readRank, hq]
    generalize double.nearest (d * double.one) 1 = wide at *
    rw [← hunits]
    exact double.nearest_units hden (le_of_lt hlt)
  have htop : readRank (10 * d) (-1) < double.top := hread ▸ hlt
  refine ⟨_, htop, scale?_eq (by omega) (by decide) (by decide) htop, ?_⟩
  rw [hread]
  exact narrow_of_sameSide h hc (fun _ => sameSide_whole hunits _) (sameSide_whole hunits _)

theorem toSingle_atRank {negative : Bool} (h : wide < double.top) :
    (Binary.atRank negative wide : Double).toSingle
      = .atRank negative (single.nearest (double.units wide * single.one) double.one) := by
  have hw : min wide double.top = wide := Nat.min_eq_left (le_of_lt h)
  simp only [Binary.toSingle, Binary.convert, Binary.atRank, hw, Nat.ne_of_lt h, if_false]

theorem toSingle?_of_readsAs {n : Number} (hw : n.word? = none)
    (h : ReadsAs n.scaling.1 n.scaling.2 rank) :
    n.toSingle? = some (.atRank n.negative rank) := by
  obtain ⟨wide, ht, hs, hn⟩ := h
  simp only [toSingle?, hw, scaled?_of_scale? hs, Option.map_some, toSingle_atRank ht, hn]

theorem readsAs_shortest {negative : Bool} (h : rank < single.top) :
    ReadsAs (ofDecimal singleWindow negative (Decimal.shortest single .toEven rank)).scaling.1
      (ofDecimal singleWindow negative (Decimal.shortest single .toEven rank)).scaling.2 rank := by
  have hle : (Decimal.shortest single .toEven rank).significand ≤ 10 * 2 ^ 25 :=
    Decimal.significand_le single .toEven rank
  have hbound : 10 * 2 ^ 25 < Count.bound := by decide
  have hlast : singleWindow.last ≤ 17 := by decide
  have hcases := scaling_ofDecimal negative hlast (lt_of_le_of_lt hle hbound)
  rcases Nat.eq_zero_or_pos rank with rfl | hpos
  · have hzero : ∀ e ∈ [(0 : Int), -1], scale? 0 e = some (.atRank false 0) := by decide +kernel
    have hreads : ∀ e ∈ [(0 : Int), -1], ReadsAs 0 e 0 := fun e he =>
      ⟨0, by decide, hzero e he, by decide⟩
    rcases hcases with hsc | ⟨-, -, hsc⟩
    · rw [hsc]
      exact hreads 0 (by decide)
    · rw [hsc]
      exact hreads (-1) (by decide)
  · obtain ⟨power, he, hs, -⟩ := Decimal.shortest_spec single .toEven hpos
    have hd := Decimal.significand_pos single .toEven hpos
    generalize Decimal.shortest single .toEven rank = d at *
    have hexp : d.exponent = power - 150 := he
    rcases hcases with hsc | ⟨hnonneg, hlt, hsc⟩
    · rw [hsc]
      show ReadsAs d.significand d.exponent rank
      rw [hexp]
      exact readsAs_of_shows hpos h hd hle hs
    · rw [hsc]
      refine readsAs_whole h hlt ?_
      have hk : d.exponent.toNat = power - 150 := by omega
      rw [hk, Nat.mul_assoc, ← tens_split (by omega)]
      exact hs.contains

/-- The literal written for a finite number of single precision reads back as that number, bit for
bit, although it is scaled in double precision on the way. -/
theorem toSingle?_ofBinary? {x : Single} (h : x.isFinite = true) :
    ∃ n, ofBinary? singleWindow x = some n ∧ n.toSingle? = some x := by
  cases x with
  | nan => cases h
  | number negative rank =>
    have ht : rank.val < single.top := of_decide_eq_true h
    refine ⟨_, if_neg (Nat.ne_of_lt ht), ?_⟩
    rw [toSingle?_of_readsAs (word?_ofDecimal _ _ _) (readsAs_shortest ht), negative_ofDecimal]
    rw [Binary.atRank_val]

end Federation.Json.Number
