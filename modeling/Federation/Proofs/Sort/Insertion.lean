import Federation.Proofs.Counting
import Federation.Proofs.Sort.Merging
import Mathlib.Data.List.Perm.Basic
import Mathlib.Tactic.ByContra

/-!
# Sorting by insertion

A comparison that goes by a key sorts by that key, and as many elements come out in front as stand
low enough. Where a comparison fails on some elements, the sort is no longer by a key: such an
element bars the way, and nothing that comes after it gets in front of what stands before it.
-/

set_option autoImplicit false

namespace Federation

variable {β : Type} {below : β → β → Bool}

theorem insertionSort_perm (below : β → β → Bool) (xs : List β) :
    (insertionSort below xs).Perm xs := insertAll_perm below [] xs

theorem length_insertionSort (below : β → β → Bool) (xs : List β) :
    (insertionSort below xs).length = xs.length := (insertionSort_perm below xs).length_eq

theorem mem_insertionSort {x : β} {xs : List β} : x ∈ insertionSort below xs ↔ x ∈ xs :=
  (insertionSort_perm below xs).mem_iff

section Key

variable {κ : Type} [LinearOrder κ] {key : β → κ} {R : β → β → Prop} {xs ys : List β}

/-- The order of a stable sort: by the key, and by another relation where the keys are equal. -/
def Before (key : β → κ) (R : β → β → Prop) (x y : β) : Prop :=
  key x < key y ∨ (key x = key y ∧ R x y)

theorem Arranges.before (h : Arranges key xs ys) (hR : xs.Pairwise R) :
    ys.Pairwise (Before key R) := by
  refine List.pairwise_iff_forall_sublist.mpr fun {x y} hs => ?_
  rcases lt_or_eq_of_le (List.pairwise_iff_forall_sublist.mp h.ascends hs) with hlt | heq
  · exact Or.inl hlt
  · refine Or.inr ⟨heq, List.pairwise_iff_forall_sublist.mp hR ?_⟩
    have hf := hs.filter fun z => decide (key z = key x)
    rw [← h.ties (key x)] at hf
    simpa [heq] using hf.trans List.filter_sublist

theorem insertionSort_before (hk : GoesBy below key xs) (hR : xs.Pairwise R) :
    (insertionSort below xs).Pairwise (Before key R) :=
  ((insertionSort_sortOf below xs).arranges hk).before hR

theorem insertionSort_ascends (hk : GoesBy below key xs) : Ascends key (insertionSort below xs) :=
  ((insertionSort_sortOf below xs).arranges hk).ascends

theorem map_key_insertionSort {keys : List κ} (hk : GoesBy below key xs)
    (hp : (xs.map key).Perm keys) (hs : keys.Pairwise (· ≤ ·)) :
    (insertionSort below xs).map key = keys :=
  (((insertionSort_perm below xs).map key).trans hp).eq_of_pairwise
    (fun _ _ _ _ => le_antisymm) (List.pairwise_map.mpr (insertionSort_ascends hk)) hs

theorem map_key_insertionSort_congr (hx : GoesBy below key xs) (hy : GoesBy below key ys)
    (hp : (xs.map key).Perm (ys.map key)) :
    (insertionSort below xs).map key = (insertionSort below ys).map key :=
  map_key_insertionSort hx (hp.trans ((insertionSort_perm below ys).map key).symm)
    (List.pairwise_map.mpr (insertionSort_ascends hy))

end Key

section Count

variable {key : β → Nat}

theorem key_le_of_mem_take {xs : List β} {m : Nat} {bound : Nat}
    (hk : GoesBy below key xs)
    (hm : m ≤ xs.countP fun x => decide (key x ≤ bound)) :
    ∀ x ∈ (insertionSort below xs).take m, key x ≤ bound := by
  intro x hx
  have hs := insertionSort_ascends hk
  rw [← (insertionSort_perm below xs).countP_eq] at hm
  by_contra hgt
  obtain ⟨i, hi, rfl⟩ := List.mem_take_iff_getElem.mp hx
  have hle := countP_le_of_lt hs (show i < (insertionSort below xs).length by omega)
    (Nat.lt_of_not_le hgt)
  omega

theorem succ_le_countP_insertionSort {xs : List β} {i bound : Nat}
    (hk : GoesBy below key xs)
    (hi : i < (insertionSort below xs).length) (hb : key (insertionSort below xs)[i] ≤ bound) :
    i + 1 ≤ xs.countP fun x => decide (key x ≤ bound) := by
  rw [← (insertionSort_perm below xs).countP_eq]
  refine Nat.le_trans (succ_le_countP (insertionSort_ascends hk) hi)
    (List.countP_mono_left fun x _ hx => ?_)
  exact decide_eq_true (Nat.le_trans (of_decide_eq_true hx) hb)

theorem length_sub_le_countP_insertionSort {xs : List β} {i bound : Nat}
    (hk : GoesBy below key xs)
    (hi : i < (insertionSort below xs).length) (hb : bound ≤ key (insertionSort below xs)[i]) :
    xs.length - i ≤ xs.countP fun x => decide (bound ≤ key x) := by
  rw [← (insertionSort_perm below xs).countP_eq, ← length_insertionSort below xs]
  refine Nat.le_trans (length_sub_le_countP (insertionSort_ascends hk) hi)
    (List.countP_mono_left fun x _ hx => ?_)
  exact decide_eq_true (Nat.le_trans hb (of_decide_eq_true hx))

end Count

theorem insertBack_of_not_below {x : β} (h : ∀ y, below x y = false) (ys : List β) :
    insertBack below x ys = x :: ys := by
  cases ys with
  | nil => rfl
  | cons y ys =>
    unfold insertBack
    rw [h y, if_neg (by simp)]

theorem insertBack_append_left {x : β} {ys zs : List β}
    (h : insertBack below x zs = x :: zs) :
    insertBack below x (ys ++ zs) = insertBack below x ys ++ zs := by
  induction ys with
  | nil => exact h
  | cons y ys ih =>
    simp only [List.cons_append, insertBack]
    split
    · rw [ih, List.cons_append]
    · rfl

theorem insertBack_append_of_bar {x z : β} {ys zs : List β} (hz : z ∈ ys)
    (h : below x z = false) :
    insertBack below x (ys ++ zs) = insertBack below x ys ++ zs := by
  induction ys with
  | nil => cases hz
  | cons y ys ih =>
    simp only [List.cons_append, insertBack]
    by_cases hxy : below x y = true
    · rcases List.mem_cons.mp hz with rfl | hz
      · rw [h] at hxy
        cases hxy
      · rw [if_pos hxy, if_pos hxy, ih hz, List.cons_append]
    · rw [if_neg hxy, if_neg hxy]
      rfl

theorem insertBack_append_right {x : β} {ys zs : List β} (h : ∀ y ∈ ys, below x y = true) :
    insertBack below x (ys ++ zs) = ys ++ insertBack below x zs := by
  induction ys with
  | nil => rfl
  | cons y ys ih =>
    simp only [List.cons_append, insertBack]
    rw [if_pos (h y (by simp)), ih fun z hz => h z (by simp [hz])]

theorem foldl_insertBack_of_bar (xs zs : List β) {ys : List β} {z : β} (hz : z ∈ ys)
    (h : ∀ x, below x z = false) :
    ∃ ys', xs.foldl (fun back x => insertBack below x back) (ys ++ zs) = ys' ++ zs := by
  induction xs generalizing ys with
  | nil => exact ⟨ys, rfl⟩
  | cons x xs ih =>
    rw [List.foldl_cons, insertBack_append_of_bar hz (h x)]
    refine ih ((insertBack_perm below x ys).mem_iff.mpr ?_)
    simp [hz]

variable {bars : β → Bool} {p : β}

theorem foldl_insertBack_around
    (hbar : ∀ z y, bars z = true → below y z = false ∧ below z y = false)
    (hpass : ∀ x y, bars y = false → below y p = false → below x p = true → below x y = true)
    (xs zs : List β) {ys : List β} (hys : ∀ y ∈ ys, bars y = false ∧ below y p = false) :
    ∃ ys' zs', xs.foldl (fun back x => insertBack below x back) (ys ++ p :: zs) = ys' ++ p :: zs' ∧
      zs'.length = zs.length + (xs.takeWhile fun x => !bars x).countP fun x => below x p := by
  induction xs generalizing ys zs with
  | nil => exact ⟨ys, zs, rfl, rfl⟩
  | cons x xs ih =>
    rw [List.foldl_cons]
    by_cases hx : bars x = true
    · rw [insertBack_of_not_below fun y => (hbar x y hx).2, ← List.cons_append]
      have hm : x ∈ x :: ys := List.mem_cons_self
      obtain ⟨ys', h⟩ := foldl_insertBack_of_bar xs (p :: zs) hm fun y => (hbar x y hx).1
      refine ⟨ys', zs, h, ?_⟩
      rw [List.takeWhile_cons_of_neg (by simp [hx])]
      simp
    · have hx' : bars x = false := by simpa using hx
      rw [List.takeWhile_cons_of_pos (by simp [hx'])]
      by_cases hp : below x p = true
      · have hall : ∀ y ∈ ys, below x y = true := fun y hy =>
          hpass x y (hys y hy).1 (hys y hy).2 hp
        have hstep : insertBack below x (p :: zs) = p :: insertBack below x zs := by
          rw [insertBack, if_pos hp]
        obtain ⟨ys', zs', h, hl⟩ := ih (insertBack below x zs) hys
        rw [insertBack_append_right hall, hstep]
        refine ⟨ys', zs', h, ?_⟩
        rw [hl, (insertBack_perm below x zs).length_eq, List.length_cons,
          List.countP_cons_of_pos (p := fun x => below x p) hp]
        omega
      · have hstep : insertBack below x (p :: zs) = x :: p :: zs := by
          rw [insertBack, if_neg hp]
        have hys' : ∀ y ∈ insertBack below x ys, bars y = false ∧ below y p = false := by
          intro y hy
          rcases List.mem_cons.mp ((insertBack_perm below x ys).mem_iff.mp hy) with rfl | hy
          · exact ⟨hx', by simpa using hp⟩
          · exact hys y hy
        rw [insertBack_append_left hstep, List.countP_cons_of_neg (p := fun x => below x p) hp]
        exact ih zs hys'

/-- An element that is below nothing stays where it was, but for the elements below it that come
after it and before the next bar. -/
theorem insertionSort_around (below : β → β → Bool) (bars : β → Bool) (p : β)
    (hp : ∀ y, below p y = false)
    (hbar : ∀ z y, bars z = true → below y z = false ∧ below z y = false)
    (hpass : ∀ x y, bars y = false → below y p = false → below x p = true → below x y = true)
    (xs ys : List β) :
    ∃ front back, insertionSort below (xs ++ p :: ys) = front ++ p :: back ∧
      front.length = xs.length + (ys.takeWhile fun y => !bars y).countP fun y => below y p := by
  have hnil : ∀ y ∈ ([] : List β), bars y = false ∧ below y p = false := by simp
  obtain ⟨ys', zs', h, hl⟩ := foldl_insertBack_around hbar hpass ys
    (xs.foldl (fun back x => insertBack below x back) []) hnil
  refine ⟨zs'.reverse, ys'.reverse, ?_, ?_⟩
  · rw [insertionSort, insertAll, List.reverse_nil, List.foldl_append, List.foldl_cons,
      insertBack_of_not_below hp]
    rw [List.nil_append] at h
    rw [h]
    simp
  · rw [List.length_reverse, hl, (foldl_insertBack_perm below xs []).length_eq, List.nil_append]

end Federation
