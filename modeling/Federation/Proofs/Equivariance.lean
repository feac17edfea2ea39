import Federation.Proofs.Exact
import Federation.Proofs.Float.Places
import Federation.Proofs.Overflow
import Mathlib.Algebra.Order.Ring.Abs
import Mathlib.Tactic.Ring

/-!
# Medians of moved values

A median goes by the sorted list alone. So it does not see the order of the values, nor which of
several numbers at one place each of them is, and in exact arithmetic it moves with the values under
every affine map: one that falls turns the sorted list around, which leaves the middle where it is.
-/

set_option autoImplicit false

namespace Federation

namespace Statistics

open Binary
open FloatFormat (double)

section Middle

variable {α β γ : Type} [Scalar α] [Scalar β]

theorem halfway?_congr {g : α → γ} {g' : β → γ} {x₁ x₂ : Option α} {y₁ y₂ : Option β}
    (h₁ : x₁.map g = y₁.map g') (h₂ : x₂.map g = y₂.map g')
    (hhalf : ∀ {x₁ x₂ : α} {y₁ y₂ : β}, g x₁ = g' y₁ → g x₂ = g' y₂ →
      g ((x₁ + x₂) / Scalar.ofNat 2) = g' ((y₁ + y₂) / Scalar.ofNat 2)) :
    (halfway? x₁ x₂).map g = (halfway? y₁ y₂).map g' := by
  cases x₁ with
  | none =>
    cases y₁ with
    | none => rfl
    | some _ => cases h₁
  | some _ =>
    cases y₁ with
    | none => cases h₁
    | some _ =>
      cases x₂ with
      | none =>
        cases y₂ with
        | none => rfl
        | some _ => cases h₂
      | some _ =>
        cases y₂ with
        | none => cases h₂
        | some _ => exact congrArg some (hhalf (Option.some.inj h₁) (Option.some.inj h₂))

/-- Lists that look alike through two maps have middles that do, if halving a sum respects the
maps. -/
theorem middle?_congr {g : α → γ} {g' : β → γ} {xs : List α} {ys : List β}
    (h : xs.map g = ys.map g')
    (hhalf : ∀ {x₁ x₂ : α} {y₁ y₂ : β}, g x₁ = g' y₁ → g x₂ = g' y₂ →
      g ((x₁ + x₂) / Scalar.ofNat 2) = g' ((y₁ + y₂) / Scalar.ofNat 2)) :
    (middle? xs).map g = (middle? ys).map g' := by
  have hl : xs.length = ys.length := by simpa using congrArg List.length h
  have hat : ∀ i : Nat, xs[i]?.map g = ys[i]?.map g' := by
    intro i
    rw [← List.getElem?_map, h, List.getElem?_map]
  unfold middle?
  rw [hl]
  by_cases heven : ys.length % 2 = 0
  · rw [if_pos heven, if_pos heven]
    exact halfway?_congr (hat _) (hat _) hhalf
  · rw [if_neg heven, if_neg heven]
    exact hat _

theorem middle?_map {f : α → β}
    (hhalf : ∀ x y, f ((x + y) / Scalar.ofNat 2) = (f x + f y) / Scalar.ofNat 2) (xs : List α) :
    middle? (xs.map f) = (middle? xs).map f := by
  have h : (middle? (xs.map f)).map id = (middle? xs).map f := by
    apply middle?_congr (List.map_id _)
    rintro x₁ x₂ y₁ y₂ rfl rfl
    exact (hhalf y₁ y₂).symm
  simpa using h

end Middle

theorem sorted_positions {xs ys : List Double} (hx : ∀ x ∈ xs, x.isNaN = false)
    (hy : ∀ y ∈ ys, y.isNaN = false) (hp : (xs.map position).Perm (ys.map position)) :
    (insertionSort Binary.lt xs).map position = (insertionSort Binary.lt ys).map position := by
  have hplaces : (xs.map place).Perm (ys.map place) := by
    have hget := hp.map fun p => p.getD 0
    rwa [List.map_map, List.map_map] at hget
  have hsorted := map_key_insertionSort_congr (lt_eq_places hx) (lt_eq_places hy) hplaces
  rw [map_position_eq_map_place fun x h => hx x (mem_insertionSort.mp h),
    map_position_eq_map_place fun y h => hy y (mem_insertionSort.mp h), hsorted]

theorem median?_position {xs ys : List Double} (hx : ∀ x ∈ xs, x.isNaN = false)
    (hy : ∀ y ∈ ys, y.isNaN = false) (hp : (xs.map position).Perm (ys.map position)) :
    (median? xs).map position = (median? ys).map position := by
  unfold median?
  apply middle?_congr (sorted_positions hx hy hp)
  intro x₁ x₂ y₁ y₂ h₁ h₂
  exact position_div_congr (position_add_congr h₁ h₂) two_hasRank (by decide) rfl

theorem goesBy_id (xs : List Rat) : GoesBy Scalar.lt id xs := fun _ _ _ _ => rfl

theorem standardize_rat (values : List Rat) :
    TwoSigma.standardize values = .ok (standardize? values) :=
  standardize_of_key (goesBy_id values) fun _ _ => goesBy_id _

theorem ascending_rat (xs : List Rat) : (insertionSort Scalar.lt xs).Pairwise (· ≤ ·) :=
  insertionSort_ascends (goesBy_id xs)

theorem insertionSort_rat {xs ys : List Rat} (hp : xs.Perm ys) (hs : ys.Pairwise (· ≤ ·)) :
    insertionSort Scalar.lt xs = ys := by
  have h := map_key_insertionSort (goesBy_id xs) (hp.map id) (by rwa [List.map_id])
  rwa [List.map_id, List.map_id] at h

theorem halfway?_comm (x y : Option Rat) : halfway? x y = halfway? y x := by
  cases x with
  | none => cases y <;> rfl
  | some x =>
    cases y with
    | none => rfl
    | some y => exact congrArg (fun sum => some (sum / Scalar.ofNat 2)) (add_comm x y)

theorem middle?_reverse (xs : List Rat) : middle? xs.reverse = middle? xs := by
  unfold middle?
  rw [List.length_reverse]
  by_cases heven : xs.length % 2 = 0
  · rw [if_pos heven, if_pos heven]
    cases hl : xs.length with
    | zero => rw [List.length_eq_zero_iff.mp hl, List.reverse_nil]
    | succ n =>
      rw [← hl, List.getElem?_reverse (by omega), List.getElem?_reverse (by omega),
        show xs.length - 1 - (xs.length / 2 - 1) = xs.length / 2 by omega,
        show xs.length - 1 - xs.length / 2 = xs.length / 2 - 1 by omega, halfway?_comm]
  · rw [if_neg heven, if_neg heven, List.getElem?_reverse (by omega)]
    congr 1
    omega

section Affine

variable {a : Rat} (ha : a ≠ 0) (b : Rat)

include ha

theorem sorted_affine (values : List Rat) :
    insertionSort Scalar.lt (values.map fun v => a * v + b)
        = (insertionSort Scalar.lt values).map (fun v => a * v + b) ∨
      insertionSort Scalar.lt (values.map fun v => a * v + b)
        = ((insertionSort Scalar.lt values).map fun v => a * v + b).reverse := by
  have hp := ((insertionSort_perm Scalar.lt values).map fun v => a * v + b).symm
  rcases lt_or_gt_of_ne ha with hneg | hpos
  · refine Or.inr (insertionSort_rat (hp.trans (List.reverse_perm _).symm) ?_)
    rw [List.pairwise_reverse, List.pairwise_map]
    exact (ascending_rat values).imp fun h =>
      add_le_add_left (mul_le_mul_of_nonpos_left h hneg.le) b
  · refine Or.inl (insertionSort_rat hp ?_)
    rw [List.pairwise_map]
    exact (ascending_rat values).imp fun h =>
      add_le_add_left (mul_le_mul_of_nonneg_left h hpos.le) b

theorem median?_affine (values : List Rat) :
    median? (values.map fun v => a * v + b) = (median? values).map fun v => a * v + b := by
  have hmap := middle?_map (f := fun v => a * v + b) (fun x y => by
    simp only [Scalar.ofNat_rat]
    push_cast
    ring) (insertionSort Scalar.lt values)
  unfold median?
  rcases sorted_affine ha b values with hsorted | hsorted
  · rw [hsorted, hmap]
  · rw [hsorted, middle?_reverse, hmap]

end Affine

end Statistics

end Federation
