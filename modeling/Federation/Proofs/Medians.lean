import Federation.Proofs.Counting
import Federation.Proofs.Float.Quotients
import Federation.Proofs.Rounds

/-!
# Medians

Half of the values lie at the median or below, ties and the middle of two values included. The same
holds of the distances from the median, so half of the values are no farther away than the median
distance, and the spread that is estimated from it is not smaller. Rounding keeps these comparisons:
their quotients by the spread are at most one.
-/

set_option autoImplicit false

namespace Federation

namespace Statistics

open Binary
open FloatFormat (double)

variable {values : List Double} {center spread v : Double} {d e w : Nat}

theorem median?_hasRank (he : e ≤ 1022)
    (hv : ∀ v ∈ values, ∃ r, v.HasRank r ∧ r ≤ double.power e)
    (h : median? values = some center) :
    ∃ q, center.HasRank q ∧ q ≤ double.power e ∧
      (values.length + 1) / 2 ≤ values.countP fun v => decide (v.rank ≤ q) := by
  have hrank : ∀ v ∈ values, v.HasRank v.rank ∧ v.rank ≤ double.power e := by
    intro v hmem
    obtain ⟨r, hr, hle⟩ := hv v hmem
    exact ⟨hr.rank_eq.symm ▸ hr, hr.rank_eq.symm ▸ hle⟩
  have hkey := lt_eq_rank fun v hmem => (hrank v hmem).1
  have hat : ∀ i (hi : i < (insertionSort Binary.lt values).length),
      (insertionSort Binary.lt values)[i].HasRank (insertionSort Binary.lt values)[i].rank ∧
        (insertionSort Binary.lt values)[i].rank ≤ double.power e := fun i hi =>
    hrank _ (mem_insertionSort.mp (List.getElem_mem hi))
  rcases median?_cases h with ⟨i, hi, hl, rfl⟩ | ⟨i, hi, hl, rfl⟩
  · refine ⟨_, (hat i hi).1, (hat i hi).2,
      le_trans ?_ (succ_le_countP_insertionSort hkey hi le_rfl)⟩
    omega
  · have hlow := Nat.lt_of_succ_lt hi
    have hle := List.pairwise_iff_getElem.mp (insertionSort_ascends hkey) i (i + 1) hlow hi
      (Nat.lt_succ_self i)
    obtain ⟨q, hq, hlq, hqh⟩ := (hat i hlow).1.middle (hat (i + 1) hi).1 hle (hat (i + 1) hi).2 he
    refine ⟨q, hq, le_trans hqh (hat (i + 1) hi).2,
      le_trans ?_ (succ_le_countP_insertionSort hkey hlow hlq)⟩
    omega

namespace TwoSigma

theorem normalDeviation_rank :
    (normalDeviation : Double).HasRank (normalDeviation : Double).rank ∧
      0 < (normalDeviation : Double).rank ∧ (normalDeviation : Double).rank < double.top ∧
      double.units (normalDeviation : Double).rank ≤ double.one ∧
      double.one ≤ 2 * double.units (normalDeviation : Double).rank := by
  unfold HasRank
  decide +kernel

theorem spread_hasRank {deviation : Double} {q : Nat} (he : e ≤ 1022) (h : deviation.HasRank q)
    (hq : q ≤ double.power e) :
    ∃ w, (deviation / normalDeviation : Double).HasRank w ∧ q ≤ w ∧ w ≤ double.power (e + 1) := by
  obtain ⟨hn, hpos, htop, hone, htwo⟩ := normalDeviation_rank
  have hq' : q < double.top := lt_of_le_of_lt hq (FloatFormat.power_lt_top (by omega))
  have hd : 0 < double.units (normalDeviation : Double).rank := double.units_pos hpos
  refine ⟨_, h.div hq' hn hpos htop, double.le_nearest hd (Nat.le_of_lt hq') ?_, ?_⟩
  · exact Nat.mul_le_mul_left _ hone
  · apply double.nearest_le hd (Nat.le_of_lt (FloatFormat.power_lt_top (by omega)))
    have hu := double.units_strictMono.monotone hq
    rw [FloatFormat.units_power] at hu ⊢
    calc double.units q * double.one
        ≤ 2 ^ e * double.one * (2 * double.units (normalDeviation : Double).rank) :=
          Nat.mul_le_mul hu htwo
      _ = 2 ^ (e + 1) * double.one * double.units (normalDeviation : Double).rank := by
          rw [Nat.pow_succ]
          ring

theorem score_hasRank (hd : (v - center).abs.HasRank d) (hw : spread.HasRank w)
    (ht : w < double.top) (hdw : d ≤ w) :
    ∃ z r, score center spread v = .measured z ∧ z.abs.HasRank r ∧ r ≤ double.power 0 ∧
      (d = 0 → r = 0) := by
  have hlt : Scalar.lt Scalar.zero spread = decide (0 < w) :=
    (hasRank_zero : (zero : Double).HasRank 0).lt_eq hw
  have hzero : (Scalar.zero : Double).abs.HasRank 0 := hasRank_zero
  unfold score
  simp only [hlt]
  by_cases hpos : 0 < w
  · rw [decide_eq_true hpos, if_pos rfl]
    have hu : 0 < double.units w := double.units_pos hpos
    refine ⟨_, _, rfl, abs_div_hasRank hd (lt_of_le_of_lt hdw ht) hw hpos ht, ?_, ?_⟩
    · apply double.nearest_le hu (Nat.le_of_lt (FloatFormat.power_lt_top (by omega)))
      rw [FloatFormat.units_power, Nat.pow_zero, Nat.one_mul, Nat.mul_comm]
      exact Nat.mul_le_mul_left _ (double.units_strictMono.monotone hdw)
    · rintro rfl
      rw [double.units_zero, Nat.zero_mul]
      exact double.nearest_zero hu
  · -- without a spread the value cannot lie away from the center
    have hz : d = 0 := by omega
    have heq : Scalar.eq (v - center) Scalar.zero = true := by
      obtain ⟨n, a, hv, ha⟩ := abs_hasRank_iff.mp hd
      have hrank : (v - center).HasRank 0 := hasRank_iff.mpr ⟨n, a, hv, ha.trans hz, fun _ => rfl⟩
      exact (hrank.eq_eq (hasRank_zero : (zero : Double).HasRank 0)).trans (decide_eq_true rfl)
    rw [decide_eq_false hpos, if_neg (by simp), if_pos heq]
    exact ⟨_, 0, rfl, hzero, Nat.zero_le _, fun _ => rfl⟩

theorem isWithin_of_lt {z threshold : Double} {r s : Nat} (hz : z.abs.HasRank r)
    (hs : threshold.HasRank s) (h : r < s) : Score.isWithin threshold (.measured z) = true :=
  (hz.lt_eq hs).trans (decide_eq_true h)

theorem keeps_eq {edit : TwoSigma Double} {i : Nat} (hi : i < edit.scores.length)
    (threshold : Double) : edit.keeps threshold i = Score.isWithin threshold edit.scores[i] := by
  rw [keeps, List.getElem?_eq_getElem hi, Option.any_some]

theorem partition_of_all {edit : TwoSigma Double} {threshold : Double}
    (h : ∀ z ∈ edit.scores, Score.isWithin threshold z = true) :
    edit.partition threshold = (List.range edit.scores.length, []) := by
  have hkeeps : ∀ i ∈ List.range edit.scores.length, edit.keeps threshold i = true := fun i hi =>
    (keeps_eq (List.mem_range.mp hi) threshold).trans (h _ (List.getElem_mem _))
  rw [partition, List.partition_eq_filter_filter, List.filter_eq_self.mpr hkeeps,
    List.filter_eq_nil_iff.mpr (by simpa using hkeeps)]

theorem partition_of_none {edit : TwoSigma Double} {threshold : Double}
    (h : ∀ z ∈ edit.scores, Score.isWithin threshold z = false) :
    edit.partition threshold = ([], List.range edit.scores.length) := by
  have hkeeps : ∀ i ∈ List.range edit.scores.length, edit.keeps threshold i = false := fun i hi =>
    (keeps_eq (List.mem_range.mp hi) threshold).trans (h _ (List.getElem_mem _))
  rw [partition, List.partition_eq_filter_filter,
    List.filter_eq_nil_iff.mpr (by simpa using hkeeps),
    List.filter_eq_self.mpr (by simpa using hkeeps)]

theorem deviation_hasRank {q : Nat} (he : e ≤ 1022)
    (hv : ∀ v ∈ values, ∃ r, v.HasRank r ∧ r ≤ double.power e) (hc : center.HasRank q)
    (hq : q ≤ double.power e) : ∀ d ∈ values.map fun v => Scalar.abs (v - center),
      ∃ r, d.HasRank r ∧ r ≤ double.power (e + 1) := by
  intro d hd
  obtain ⟨v, hmem, rfl⟩ := List.mem_map.mp hd
  obtain ⟨r, hr, hle⟩ := hv v hmem
  have htop : double.power e < double.top := FloatFormat.power_lt_top (by omega)
  obtain ⟨t, ht, htle⟩ := abs_sub_hasRank hr.abs (lt_of_le_of_lt hle htop) hc.abs
    (lt_of_le_of_lt hq htop)
  refine ⟨t, ht, le_trans htle ?_⟩
  rw [← plus_power he]
  exact double.plus_mono hle hq

theorem standardize?_hasRank {edit : TwoSigma Double} (he : e ≤ 1020)
    (hv : ∀ v ∈ values, ∃ r, v.HasRank r ∧ r ≤ double.power e)
    (h : standardize? values = some edit) :
    ∃ center q w, median? values = some center ∧ center.isFinite = true ∧
      edit.scores = values.map (score center edit.spread) ∧
      edit.spread.HasRank w ∧ w < double.top ∧ q ≤ w ∧
      (∀ v ∈ values, (v - center).abs.HasRank (v - center).abs.rank) ∧
      (values.length + 1) / 2 ≤ values.countP fun v => decide ((v - center).abs.rank ≤ q) := by
  obtain ⟨center, deviation, hc, hd, rfl⟩ := standardize?_eq_some_iff.mp h
  obtain ⟨m, hm, hme, -⟩ := median?_hasRank (by omega) hv hc
  have hdev := deviation_hasRank (by omega) hv hm hme
  obtain ⟨q, hq, hqe, hhalf⟩ := median?_hasRank (by omega) hdev hd
  obtain ⟨w, hw, hqw, hwe⟩ := spread_hasRank (by omega) hq hqe
  have hfin : center.isFinite = true := by
    rw [hm.isFinite, decide_eq_true_eq]
    exact lt_of_le_of_lt hme (FloatFormat.power_lt_top (by omega))
  have htop : w < double.top := lt_of_le_of_lt hwe (FloatFormat.power_lt_top (by omega))
  rw [List.length_map, List.countP_map] at hhalf
  refine ⟨center, q, w, hc, hfin, rfl, hw, htop, hqw, fun v hmem => ?_, hhalf⟩
  obtain ⟨d, hdv, -⟩ := hdev _ (List.mem_map_of_mem hmem)
  exact hdv.rank_eq.symm ▸ hdv

/-- Above one the threshold keeps half of the values, rounded up. Any positive threshold keeps a
value that is the median itself. -/
theorem countP_isWithin {edit : TwoSigma Double} (threshold : Double) (he : e ≤ 1020)
    (hv : ∀ v ∈ values, ∃ r, v.HasRank r ∧ r ≤ double.power e)
    (h : standardize? values = some edit) :
    (∃ w, edit.spread.HasRank w) ∧
      (Scalar.lt Scalar.one threshold = true →
        (values.length + 1) / 2 ≤ edit.scores.countP (Score.isWithin threshold)) ∧
      (values.length % 2 = 1 → Scalar.lt Scalar.zero threshold = true →
        0 < edit.scores.countP (Score.isWithin threshold)) := by
  obtain ⟨center, q, w, hc, hfin, hscores, hw, htop, hqw, hdev, hhalf⟩ :=
    standardize?_hasRank he hv h
  rw [hscores]
  refine ⟨⟨w, hw⟩, fun hone => ?_, fun hodd hzero => ?_⟩
  · obtain ⟨s, hs, hlt⟩ := one_hasRank.of_lt hone
    rw [List.countP_map]
    refine le_trans hhalf (List.countP_mono_left fun v hmem hle => ?_)
    obtain ⟨z, r, hz, hzr, hr, -⟩ := score_hasRank (hdev v hmem) hw htop
      (le_trans (of_decide_eq_true hle) hqw)
    rw [Function.comp_apply, hz]
    exact isWithin_of_lt hzr hs (lt_of_le_of_lt hr hlt)
  · -- the median is a value here, and has no distance from itself
    obtain ⟨s, hs, hlt⟩ := (hasRank_zero : (zero : Double).HasRank 0).of_lt hzero
    obtain ⟨z, r, hz, hzr, -, hr⟩ := score_hasRank (abs_sub_self hfin) hw htop (Nat.zero_le w)
    refine List.countP_pos_iff.mpr ⟨_, List.mem_map_of_mem (median?_mem hodd hc), ?_⟩
    rw [hz]
    exact isWithin_of_lt hzr hs (hr rfl ▸ hlt)

end TwoSigma

end Statistics

end Federation
