import Federation.Proofs.Medians
import Federation.Proofs.Scores

/-!
# Overflow of medians

The median of finite values is a number. It is finite, and divides the values into halves, unless
two values in the middle have a sum that is too large, although their mean is not. An infinite
median is infinitely far from all values, so no score is a number and nobody is kept. A finite one
leaves invalid scores only to values that are infinitely far from it while the spread is infinite
too. Values that can be doubled are free of all this.
-/

set_option autoImplicit false

namespace Federation

namespace Statistics

open Binary FloatFormat

variable {values : List Double} {center spread v : Double}

/-- The two values in the middle of an even number have a finite sum. -/
def MiddleFits (values : List Double) : Prop :=
  ∀ (i : Nat) (low high : Double), values.length = 2 * (i + 1) →
    (insertionSort Binary.lt values)[i]? = some low →
    (insertionSort Binary.lt values)[i + 1]? = some high → (low + high).isFinite = true

/-- At least half of the values are at most the center, and at least half are not below it. -/
structure Halves (values : List Double) (center : Double) : Prop where
  below : values.length ≤ 2 * values.countP fun v => v.le center
  above : values.length ≤ 2 * values.countP fun v => center.le v

theorem halves_of_between {i j : Nat} (hv : ∀ v ∈ values, v.isNaN = false)
    (hc : center.isNaN = false) (hi : i < (insertionSort Binary.lt values).length)
    (hj : j < (insertionSort Binary.lt values).length)
    (hlow : (insertionSort Binary.lt values)[i].amount ≤ center.amount)
    (hhigh : center.amount ≤ (insertionSort Binary.lt values)[j].amount)
    (hbelow : values.length ≤ 2 * (i + 1)) (habove : values.length ≤ 2 * (values.length - j)) :
    Halves values center := by
  have hkey : ∀ x ∈ values, ∀ y ∈ values, x.lt y = decide (x.level < y.level) :=
    fun x hx y hy => lt_eq_level (hv x hx) (hv y hy)
  have hcountl := succ_le_countP_insertionSort hkey hi ((level_le_iff _ _).mpr hlow)
  have hcounth := length_sub_le_countP_insertionSort hkey hj ((level_le_iff _ _).mpr hhigh)
  have hle : values.countP (fun v => v.le center)
      = values.countP fun v => decide (v.level ≤ center.level) :=
    List.countP_congr fun v hmem => by rw [le_eq_level (hv v hmem) hc]
  have hge : values.countP (fun v => center.le v)
      = values.countP fun v => decide (center.level ≤ v.level) :=
    List.countP_congr fun v hmem => by rw [le_eq_level hc (hv v hmem)]
  constructor
  · rw [hle]
    omega
  · rw [hge]
    omega

theorem middleFits_odd {i : Nat} (hl : values.length = 2 * i + 1) : MiddleFits values := by
  intro j low high hj
  omega

theorem middleFits_even {i : Nat} (hi : i + 1 < (insertionSort Binary.lt values).length)
    (hl : values.length = 2 * (i + 1)) :
    MiddleFits values ↔ ((insertionSort Binary.lt values)[i]
      + (insertionSort Binary.lt values)[i + 1]).isFinite = true := by
  have hlow := List.getElem?_eq_getElem (Nat.lt_of_succ_lt hi)
  have hhigh := List.getElem?_eq_getElem hi
  constructor
  · intro hfits
    exact hfits i _ _ hl hlow hhigh
  · intro hsum j low high hj hlow' hhigh'
    obtain rfl : i = j := by omega
    cases Option.some.inj (hlow.symm.trans hlow')
    cases Option.some.inj (hhigh.symm.trans hhigh')
    exact hsum

theorem median?_of_finite (hv : ∀ v ∈ values, v.isFinite = true)
    (h : median? values = some center) :
    center.isNaN = false ∧ (center.isFinite = true ↔ MiddleFits values) ∧
      (center.isFinite = true → Halves values center) := by
  have hnan : ∀ v ∈ values, v.isNaN = false := fun v hmem => isNaN_of_isFinite (hv v hmem)
  have hsorted : ∀ i (hi : i < (insertionSort Binary.lt values).length),
      (insertionSort Binary.lt values)[i].isFinite = true := fun i hi =>
    hv _ (mem_insertionSort.mp (List.getElem_mem hi))
  rcases median?_cases h with ⟨i, hi, hl, rfl⟩ | ⟨i, hi, hl, rfl⟩
  · have hfin := hsorted i hi
    refine ⟨isNaN_of_isFinite hfin, iff_of_true hfin (middleFits_odd hl), fun _ => ?_⟩
    exact halves_of_between hnan (isNaN_of_isFinite hfin) hi hi le_rfl le_rfl (by omega) (by omega)
  · have hi' : i < (insertionSort Binary.lt values).length := Nat.lt_of_succ_lt hi
    have hle : (insertionSort Binary.lt values)[i].amount
        ≤ (insertionSort Binary.lt values)[i + 1].amount := by
      rw [← level_le_iff]
      refine List.pairwise_iff_getElem.mp (insertionSort_ascends fun x hx y hy => ?_) i (i + 1) hi'
        hi (Nat.lt_succ_self i)
      exact lt_eq_level (hnan x hx) (hnan y hy)
    rw [middleFits_even hi hl]
    show Binary.isNaN (((insertionSort Binary.lt values)[i]
      + (insertionSort Binary.lt values)[i + 1]) / Scalar.ofNat 2) = false ∧ _
    by_cases hsum : ((insertionSort Binary.lt values)[i]
        + (insertionSort Binary.lt values)[i + 1]).isFinite = true
    · obtain ⟨hfin, hlow, hhigh⟩ := middle_amount (hsorted i hi') (hsorted (i + 1) hi) hle hsum
      refine ⟨isNaN_of_isFinite hfin, iff_of_true hfin hsum, fun _ => ?_⟩
      exact halves_of_between hnan (isNaN_of_isFinite hfin) hi' hi hlow hhigh (by omega) (by omega)
    · obtain ⟨hnotNaN, hinfinite⟩ := middle_of_overflow (hsorted i hi') (hsorted (i + 1) hi) hsum
      exact ⟨hnotNaN, iff_of_false hinfinite hsum, fun hfin => absurd hfin hinfinite⟩

theorem median?_unsigned (hv : ∀ v ∈ values, ∃ r, v.HasRank r) (h : median? values = some center) :
    ∃ q, center.HasRank q := by
  refine median?_induction (P := fun v => ∃ r, v.HasRank r) hv (fun x y hx hy => ?_) h
  obtain ⟨r, hr⟩ := hx
  obtain ⟨s, hs⟩ := hy
  exact (hr.add hs).div_exists two_hasRank (by decide) (power_lt_top (by decide))

theorem median?_infinity (hv : ∀ v ∈ values, v = infinity false)
    (h : median? values = some center) : center = infinity false := by
  refine median?_induction (P := fun v => v = infinity false) hv (fun x y hx hy => ?_) h
  rw [hx, hy]
  exact infinity_div false two_hasRank (by decide) (power_lt_top (by decide))

theorem median?_double (hv : ∀ v ∈ values, (v + v).isFinite = true)
    (h : median? values = some center) : (center + center).isFinite = true := by
  refine median?_induction (P := fun v => (v + v).isFinite = true) hv (fun x y hx hy => ?_) h
  have hfx := (isFinite_of_add hx).1
  have hfy := (isFinite_of_add hy).1
  rcases Int.le_total x.amount y.amount with hle | hle
  · obtain ⟨hfin, hlow, hhigh⟩ := middle_amount hfx hfy hle (add_isFinite_of_double hx hy)
    exact double_isFinite_of_between hfin hx hy hlow hhigh
  · rw [Binary.add_comm x y]
    obtain ⟨hfin, hlow, hhigh⟩ := middle_amount hfy hfx hle (add_isFinite_of_double hy hx)
    exact double_isFinite_of_between hfin hy hx hlow hhigh

namespace TwoSigma

variable {w : Nat}

theorem deviations_unsigned (hv : ∀ v ∈ values, v.isFinite = true) (hc : center.isNaN = false) :
    ∀ d ∈ values.map fun v => Scalar.abs (v - center), ∃ r, d.HasRank r := by
  intro d hd
  obtain ⟨v, hmem, rfl⟩ := List.mem_map.mp hd
  exact ⟨_, abs_hasRank (sub_isNaN (hv v hmem) hc)⟩

theorem score_isNaN_iff (hd : (v - center).isNaN = false) (hw : spread.HasRank w) :
    (score center spread v).toDouble.isNaN = true ↔
      (v - center).isFinite = false ∧ spread.isFinite = false := by
  have hlt : Scalar.lt Scalar.zero spread = decide (0 < w) :=
    (hasRank_zero : (zero : Double).HasRank 0).lt_eq hw
  unfold score
  simp only [hlt]
  by_cases hpos : 0 < w
  · rw [decide_eq_true hpos, if_pos rfl]
    exact div_isNaN_iff hd hw hpos
  · have hfin : spread.isFinite = true := by
      rw [hw.isFinite, decide_eq_true_eq]
      have := double.top_pos
      omega
    rw [decide_eq_false hpos, if_neg Bool.false_ne_true, hfin]
    refine iff_of_false ?_ (by simp)
    split <;> exact Bool.false_ne_true

theorem spread_exists {deviation : Double} (hv : ∀ v ∈ values, v.isFinite = true)
    (hc : center.isNaN = false)
    (h : median? (values.map fun v => Scalar.abs (v - center)) = some deviation) :
    ∃ w, (deviation / normalDeviation : Double).HasRank w := by
  obtain ⟨q, hq⟩ := median?_unsigned (deviations_unsigned hv hc) h
  obtain ⟨hn, hpos, htop, -⟩ := normalDeviation_rank
  exact hq.div_exists hn hpos htop

theorem spread_of_infinite {deviation : Double} (hv : ∀ v ∈ values, v.isFinite = true)
    (hc : center.isNaN = false) (hinf : center.isFinite = false)
    (h : median? (values.map fun v => Scalar.abs (v - center)) = some deviation) :
    (deviation / normalDeviation : Double).isFinite = false := by
  obtain ⟨hn, hpos, htop, -⟩ := normalDeviation_rank
  have hall : ∀ d ∈ values.map fun v => Scalar.abs (v - center), d = infinity false := by
    intro d hd
    obtain ⟨v, hmem, rfl⟩ := List.mem_map.mp hd
    obtain ⟨n, hdiff⟩ := eq_infinity (sub_isNaN (hv v hmem) hc) (sub_infinite v hinf)
    rw [hdiff]
    rfl
  rw [median?_infinity hall h, infinity_div false hn hpos htop]
  decide

theorem isWithin_of_isNaN {z : Score Double} (h : z.toDouble.isNaN = true) (threshold : Double) :
    z.isWithin threshold = false := by
  cases z with
  | measured x =>
    cases x with
    | nan => exact nan_lt threshold
    | number n a => cases h
  | unbounded below => rfl

/-- Finite values always have an edit. Its center is finite exactly if the middle fits, and then it
divides the values into halves. An invalid score belongs to a value that is infinitely far from the
center where the spread is infinite too. So with an infinite center nobody is kept, and values that
can be doubled have a finite center and valid scores only. -/
theorem edit_of_finite (values : List Double) (hne : values ≠ [])
    (hv : ∀ v ∈ values, v.isFinite = true) :
    ∃ center edit, Statistics.median values = .ok (some center) ∧ ofValues values = .ok edit ∧
      edit.median = center ∧ center.isNaN = false ∧
      (center.isFinite = true ↔ MiddleFits values) ∧
      (center.isFinite = true → Halves values center) ∧
      edit.scores = values.map (score center edit.spread) ∧
      (∀ v ∈ values, ((score center edit.spread v).toDouble.isNaN = true ↔
        (v - center).isFinite = false ∧ edit.spread.isFinite = false)) ∧
      (center.isFinite = false →
        ∀ threshold, edit.partition threshold = ([], List.range values.length)) ∧
      ((∀ v ∈ values, (v + v).isFinite = true) →
        center.isFinite = true ∧ ∀ z ∈ edit.scores, z.toDouble.isNaN = false) := by
  obtain ⟨edit, hedit⟩ := ofValues_exists hne hv
  obtain ⟨center, deviation, hc, hd, rfl⟩ :=
    standardize?_eq_some_iff.mp (ofValues_ok_iff.mp hedit).2
  obtain ⟨hnan, hfits, hhalves⟩ := median?_of_finite hv hc
  obtain ⟨w, hw⟩ := spread_exists hv hnan hd
  have hscore : ∀ v ∈ values, ((score center (deviation / normalDeviation) v).toDouble.isNaN = true
      ↔ (v - center).isFinite = false ∧ (deviation / normalDeviation : Double).isFinite = false) :=
    fun v hmem => score_isNaN_iff (sub_isNaN (hv v hmem) hnan) hw
  refine ⟨center, _, by rw [median_of_finite hv, hc], hedit, rfl, hnan, hfits, hhalves, rfl,
    hscore, ?_, ?_⟩
  · intro hinf threshold
    rw [partition_of_none fun z hz => ?_, List.length_map]
    obtain ⟨v, hmem, rfl⟩ := List.mem_map.mp hz
    have hinvalid := (hscore v hmem).mpr ⟨sub_infinite v hinf, spread_of_infinite hv hnan hinf hd⟩
    exact isWithin_of_isNaN hinvalid threshold
  · intro hdouble
    have hcenter := median?_double hdouble hc
    refine ⟨(isFinite_of_add hcenter).1, fun z hz => ?_⟩
    obtain ⟨v, hmem, rfl⟩ := List.mem_map.mp hz
    have hnear := sub_isFinite_of_double (hdouble v hmem) hcenter
    rw [Bool.eq_false_iff, Ne, hscore v hmem, hnear]
    simp

def largest : Double := .atRank false (double.top - 1)

def balanced : List Double :=
  [.atRank false (double.power 1022), .atRank true (double.power 1022), .zero,
    .atRank false (double.power 1022)]

theorem edit_of_finite_balanced :
    balanced ≠ [] ∧ ∃ center edit, Statistics.median balanced = .ok (some center) ∧
      ofValues balanced = .ok edit ∧ center.isFinite = true ∧ Halves balanced center ∧
      ∀ z ∈ edit.scores, z.toDouble.isNaN = false := by
  obtain ⟨hfinite, hdouble⟩ : (∀ v ∈ balanced, v.isFinite = true) ∧
      ∀ v ∈ balanced, (v + v).isFinite = true := by decide +kernel
  obtain ⟨center, edit, hc, he, -, -, -, hhalves, -, -, -, hvalid⟩ :=
    edit_of_finite balanced (by decide) hfinite
  obtain ⟨hfin, hscores⟩ := hvalid hdouble
  exact ⟨by decide, center, edit, hc, he, hfin, hhalves hfin, hscores⟩

/-- Two copies of the largest number have an infinite median, no valid score, and nobody is kept. -/
theorem median_overflows :
    (∀ v ∈ [largest, largest], v.isFinite = true) ∧
      (Statistics.median [largest, largest]).toOption = some (some (.infinity false)) ∧
      (ofValues [largest, largest]).toOption.map (fun edit => edit.scores)
        = some [.measured .nan, .measured .nan] ∧
      (ofValues [largest, largest]).toOption.map (fun edit => edit.partition (Scalar.ofNat 2))
        = some ([], [0, 1]) := by
  decide +kernel

end TwoSigma

end Statistics

end Federation
