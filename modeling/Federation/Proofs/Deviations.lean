import Federation.Proofs.Float.Overflow
import Federation.Proofs.Float.Places
import Federation.Proofs.Orders
import Federation.Statistics.TwoSigma

/-!
# Medians and deviations

The sort of numbers is a sort by their places, so it is as good as one by insertion, and the median
is the middle of the list that insertion sorts.
-/

set_option autoImplicit false

namespace Federation

namespace Statistics

open Binary
open FloatFormat (double)

section Insertion

variable {α : Type} [Scalar α] {values : List α} {center : α}

/-- The middle of the list that insertion sorts. -/
def median? (values : List α) : Option α := middle? (insertionSort Scalar.lt values)

def standardize? (values : List α) : Option (TwoSigma α) := do
  let center ← median? values
  let deviation ← median? (values.map fun v => Scalar.abs (v - center))
  return TwoSigma.edit values center deviation

theorem median_of_key {κ : Type} [LinearOrder κ] {key : α → κ}
    (h : GoesBy Scalar.lt key values) : median values = .ok (median? values) := by
  unfold median
  rw [Sorting.sorted_of_key h]
  rfl

theorem standardize_of_key {κ : Type} [LinearOrder κ] {key : α → κ}
    (h : GoesBy Scalar.lt key values)
    (hd : ∀ center, median? values = some center →
      GoesBy Scalar.lt key (values.map fun v => Scalar.abs (v - center))) :
    TwoSigma.standardize values = .ok (standardize? values) := by
  unfold TwoSigma.standardize medianDeviation standardize?
  rw [median_of_key h]
  cases hc : median? values with
  | none => rfl
  | some center =>
    simp only [except_bind_ok, Option.bind_eq_bind, Option.bind_some]
    rw [median_of_key (hd center hc)]
    cases median? (values.map fun v => Scalar.abs (v - center)) <;> rfl

/-- The median is the middle one of an odd number of values, and half the sum of the two in the
middle of an even number. -/
theorem median?_cases (h : median? values = some center) :
    (∃ i, ∃ hi : i < (insertionSort Scalar.lt values).length,
      values.length = 2 * i + 1 ∧ center = (insertionSort Scalar.lt values)[i]) ∨
    ∃ i, ∃ hi : i + 1 < (insertionSort Scalar.lt values).length,
      values.length = 2 * (i + 1) ∧ center = ((insertionSort Scalar.lt values)[i]
        + (insertionSort Scalar.lt values)[i + 1]) / Scalar.ofNat 2 := by
  have hl : (insertionSort Scalar.lt values).length = values.length := length_insertionSort _ _
  unfold median? middle? at h
  split at h
  · simp only [halfway?, Option.bind_eq_bind, Option.bind_eq_some_iff,
      List.getElem?_eq_some_iff] at h
    obtain ⟨low, ⟨hlow, rfl⟩, high, ⟨hhigh, rfl⟩, h⟩ := h
    cases h
    obtain ⟨i, hi⟩ : ∃ i, (insertionSort Scalar.lt values).length / 2 = i + 1 :=
      ⟨(insertionSort Scalar.lt values).length / 2 - 1, by omega⟩
    refine Or.inr ⟨i, by omega, by omega, ?_⟩
    simp only [hi, Nat.add_sub_cancel]
  · obtain ⟨hi, rfl⟩ := List.getElem?_eq_some_iff.mp h
    exact Or.inl ⟨_, hi, by omega, rfl⟩

theorem median?_mem
    (hodd : values.length % 2 = 1) (h : median? values = some center) : center ∈ values := by
  rcases median?_cases h with ⟨i, hi, -, rfl⟩ | ⟨i, -, hl, -⟩
  · exact mem_insertionSort.mp (List.getElem_mem hi)
  · omega

theorem median?_induction {P : α → Prop} (hv : ∀ v ∈ values, P v)
    (hmiddle : ∀ x y, P x → P y → P ((x + y) / Scalar.ofNat 2))
    (h : median? values = some center) : P center := by
  have hsorted : ∀ i (hi : i < (insertionSort Scalar.lt values).length),
      P (insertionSort Scalar.lt values)[i] := fun i hi =>
    hv _ (mem_insertionSort.mp (List.getElem_mem hi))
  rcases median?_cases h with ⟨i, hi, -, rfl⟩ | ⟨i, hi, -, rfl⟩
  · exact hsorted i hi
  · exact hmiddle _ _ (hsorted i (Nat.lt_of_succ_lt hi)) (hsorted (i + 1) hi)

theorem median?_exists (h : values ≠ []) : ∃ m, median? values = some m := by
  have hl : (insertionSort Scalar.lt values).length = values.length := length_insertionSort _ _
  have hpos : 0 < values.length := List.length_pos_iff.mpr h
  have hmid : (insertionSort Scalar.lt values).length / 2
      < (insertionSort Scalar.lt values).length := by omega
  unfold median? middle?
  split
  · rw [List.getElem?_eq_getElem (by omega), List.getElem?_eq_getElem hmid]
    exact ⟨_, rfl⟩
  · rw [List.getElem?_eq_getElem hmid]
    exact ⟨_, rfl⟩

theorem standardize?_eq_some_iff {edit : TwoSigma α} :
    standardize? values = some edit ↔ ∃ center deviation, median? values = some center ∧
      median? (values.map fun v => Scalar.abs (v - center)) = some deviation ∧
      edit = ⟨center, deviation / TwoSigma.normalDeviation,
        values.map (TwoSigma.score center (deviation / TwoSigma.normalDeviation))⟩ := by
  simp only [standardize?, Option.bind_eq_bind, Option.bind_eq_some_iff, Option.pure_def,
    Option.some.injEq, eq_comm (a := edit)]
  exact ⟨fun ⟨center, hc, deviation, hd, he⟩ => ⟨center, deviation, hc, hd, he⟩,
    fun ⟨center, deviation, hc, hd, he⟩ => ⟨center, hc, deviation, hd, he⟩⟩

theorem standardize?_length {edit : TwoSigma α} (h : standardize? values = some edit) :
    edit.scores.length = values.length := by
  obtain ⟨center, deviation, -, -, rfl⟩ := standardize?_eq_some_iff.mp h
  exact List.length_map _

theorem standardize?_exists (hne : values ≠ []) : ∃ edit, standardize? values = some edit := by
  obtain ⟨center, hc⟩ := median?_exists hne
  obtain ⟨deviation, hd⟩ := median?_exists (show (values.map fun v => Scalar.abs (v - center)) ≠ []
    by simpa using hne)
  exact ⟨_, standardize?_eq_some_iff.mpr ⟨center, deviation, hc, hd, rfl⟩⟩

end Insertion

section Doubles

variable {values : List Double} {center : Double}

theorem goesBy_place (h : ∀ v ∈ values, v.isNaN = false) : GoesBy Scalar.lt place values :=
  lt_eq_places h

theorem middle_isNaN {x y : Double} (hx : x.isFinite = true) (hy : y.isFinite = true) :
    ((x + y) / Scalar.ofNat 2).isNaN = false := by
  by_cases hsum : (x + y).isFinite = true
  · rw [Bool.eq_false_iff, Ne, div_isNaN_iff (isNaN_of_isFinite hsum) two_hasRank (by decide), hsum]
    simp
  · exact (middle_of_overflow hx hy hsum).1

theorem median?_isNaN (hv : ∀ v ∈ values, v.isFinite = true) (h : median? values = some center) :
    center.isNaN = false := by
  have hsorted : ∀ i (hi : i < (insertionSort Scalar.lt values).length),
      (insertionSort Scalar.lt values)[i].isFinite = true := fun i hi =>
    hv _ (mem_insertionSort.mp (List.getElem_mem hi))
  rcases median?_cases h with ⟨i, hi, -, rfl⟩ | ⟨i, hi, -, rfl⟩
  · exact isNaN_of_isFinite (hsorted i hi)
  · exact middle_isNaN (hsorted i (Nat.lt_of_succ_lt hi)) (hsorted (i + 1) hi)

theorem deviations_isNaN (hv : ∀ v ∈ values, v.isFinite = true) (hc : center.isNaN = false) :
    ∀ d ∈ values.map fun v => Scalar.abs (v - center), d.isNaN = false := by
  intro d hd
  obtain ⟨v, hmem, rfl⟩ := List.mem_map.mp hd
  exact (abs_hasRank (sub_isNaN (hv v hmem) hc)).isNaN

theorem median_of_finite (hv : ∀ v ∈ values, v.isFinite = true) :
    median values = .ok (median? values) :=
  median_of_key (goesBy_place fun v hm => isNaN_of_isFinite (hv v hm))

theorem standardize_of_finite (hv : ∀ v ∈ values, v.isFinite = true) :
    TwoSigma.standardize values = .ok (standardize? values) :=
  standardize_of_key (goesBy_place fun v hm => isNaN_of_isFinite (hv v hm)) fun _ hc =>
    goesBy_place (deviations_isNaN hv (median?_isNaN hv hc))

namespace TwoSigma

theorem ofValues_ok_iff {edit : TwoSigma Double} :
    ofValues values = .ok edit ↔
      (∀ v ∈ values, v.isFinite = true) ∧ standardize? values = some edit := by
  unfold ofValues
  cases hf : values.find? fun v => !v.isFinite with
  | some v =>
    have hv := List.find?_some hf
    have hm := List.mem_of_find?_eq_some hf
    simp only [reduceCtorEq, false_iff]
    intro hw
    simp [hw.1 v hm] at hv
  | none =>
    have hv : ∀ v ∈ values, v.isFinite = true := by simpa using List.find?_eq_none.mp hf
    simp only [standardize_of_finite hv, except_bind_ok]
    cases standardize? values with
    | none => simp
    | some t => exact ⟨fun h => ⟨hv, congrArg some (Except.ok.inj h)⟩,
        fun h => congrArg Except.ok (Option.some.inj h.2)⟩

theorem ofValues_exists (hne : values ≠ []) (hf : ∀ v ∈ values, v.isFinite = true) :
    ∃ edit, ofValues values = .ok edit := by
  obtain ⟨edit, he⟩ := standardize?_exists hne
  exact ⟨edit, ofValues_ok_iff.mpr ⟨hf, he⟩⟩

end TwoSigma

end Doubles

end Statistics

end Federation
