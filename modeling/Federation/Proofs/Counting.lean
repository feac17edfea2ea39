import Mathlib.Data.Finset.Card
import Mathlib.Data.List.Basic

/-!
# Counting

The members of a list are counted by a test, through their places in the list or through the order
they stand in. In an ascending list the members up to a bound stand in front.
-/

set_option autoImplicit false

namespace Federation

variable {β : Type}

theorem card_le_countP_range {n : Nat} {members : Finset Nat} {test : Nat → Bool}
    (h : ∀ i ∈ members, i < n ∧ test i = true) :
    members.card ≤ (List.range n).countP test := by
  have hs : members ⊆ ((List.range n).filter test).toFinset := by
    intro i hi
    obtain ⟨hn, ht⟩ := h i hi
    simp [hn, ht]
  calc members.card ≤ ((List.range n).filter test).toFinset.card := Finset.card_le_card hs
    _ ≤ ((List.range n).filter test).length := List.toFinset_card_le _
    _ = (List.range n).countP test := (List.countP_eq_length_filter).symm

/-- In a table over the range, what holds of many columns leaves room for few others. -/
theorem countP_range_add_card_le {n : Nat} {members : Finset Nat} {test : Nat → Bool}
    (h : ∀ i ∈ members, i < n ∧ test i = false) :
    (List.range n).countP test + members.card ≤ n := by
  have hm : members.card ≤ (List.range n).countP fun i => !test i :=
    card_le_countP_range fun i hi => ⟨(h i hi).1, by simp [(h i hi).2]⟩
  have hl := List.length_eq_countP_add_countP test (l := List.range n)
  have hn : (List.range n).countP (fun i => !test i)
      = (List.range n).countP fun i => decide (¬test i = true) := by
    congr 1
    funext i
    cases test i <;> rfl
  rw [List.length_range] at hl
  omega

theorem countP_range_getElem? (test : β → Bool) (xs : List β) :
    ((List.range xs.length).countP fun i => xs[i]?.any test) = xs.countP test := by
  induction xs with
  | nil => rfl
  | cons x xs ih =>
    rw [List.length_cons, List.range_succ_eq_map, List.countP_cons, List.countP_map,
      List.countP_cons, ← ih]
    simp [Function.comp_def]

section Ascending

variable {key : β → Nat} {xs : List β} {i : Nat}

theorem succ_le_countP (h : xs.Pairwise fun x y => key x ≤ key y) (hi : i < xs.length) :
    i + 1 ≤ xs.countP fun x => decide (key x ≤ key xs[i]) := by
  have hall : (xs.take (i + 1)).countP (fun x => decide (key x ≤ key xs[i])) = i + 1 := by
    rw [List.countP_eq_length.mpr, List.length_take, Nat.min_eq_left hi]
    intro x hx
    obtain ⟨j, hj, rfl⟩ := List.mem_take_iff_getElem.mp hx
    rw [decide_eq_true_eq]
    rcases Nat.lt_or_eq_of_le (show j ≤ i by omega) with hlt | heq
    · exact List.pairwise_iff_getElem.mp h j i (by omega) hi hlt
    · simp only [heq, Nat.le_refl]
  rw [← hall]
  exact (List.take_sublist (i + 1) xs).countP_le

theorem length_sub_le_countP (h : xs.Pairwise fun x y => key x ≤ key y) (hi : i < xs.length) :
    xs.length - i ≤ xs.countP fun x => decide (key xs[i] ≤ key x) := by
  have hall : (xs.drop i).countP (fun x => decide (key xs[i] ≤ key x)) = xs.length - i := by
    rw [List.countP_eq_length.mpr, List.length_drop]
    intro x hx
    obtain ⟨j, hj, rfl⟩ := List.mem_iff_getElem.mp hx
    rw [List.length_drop] at hj
    rw [List.getElem_drop, decide_eq_true_eq]
    rcases Nat.eq_zero_or_pos j with rfl | hpos
    · exact Nat.le_refl _
    · exact List.pairwise_iff_getElem.mp h i (i + j) hi (by omega) (by omega)
  rw [← hall]
  exact (List.drop_sublist i xs).countP_le

theorem countP_le_of_lt {bound : Nat} (h : xs.Pairwise fun x y => key x ≤ key y)
    (hi : i < xs.length) (hb : bound < key xs[i]) :
    (xs.countP fun x => decide (key x ≤ bound)) ≤ i := by
  have hd : (xs.drop i).countP (fun x => decide (key x ≤ bound)) = 0 := by
    rw [List.countP_eq_zero]
    intro x hx
    obtain ⟨j, hj, rfl⟩ := List.mem_iff_getElem.mp hx
    rw [List.length_drop] at hj
    rw [List.getElem_drop, decide_eq_true_eq, Nat.not_le]
    apply Nat.lt_of_lt_of_le hb
    rcases Nat.eq_zero_or_pos j with rfl | hpos
    · exact Nat.le_refl _
    · exact List.pairwise_iff_getElem.mp h i (i + j) hi (by omega) (by omega)
  have ht := List.countP_le_length (l := xs.take i) (p := fun x => decide (key x ≤ bound))
  rw [List.length_take] at ht
  rw [← List.take_append_drop i xs, List.countP_append, hd]
  omega

theorem countP_of_rise (h : xs.Pairwise fun x y => key x ≤ key y) (hi : i + 1 < xs.length)
    (hrise : key xs[i] < key xs[i + 1]) :
    (xs.countP fun x => decide (key x ≤ key xs[i])) = i + 1 :=
  Nat.le_antisymm (countP_le_of_lt h hi hrise) (succ_le_countP h (Nat.lt_of_succ_lt hi))

end Ascending

end Federation
