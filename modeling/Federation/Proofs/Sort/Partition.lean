import Federation.Proofs.Sort.Runs

/-!
# Partitions

A partition keeps each side in its order, so a sort by partitions arranges a list if no element of a
part is below the pivot to its left.
-/

set_option autoImplicit false

namespace Federation

variable {β κ : Type} [LinearOrder κ] {below : β → β → Bool} {key : β → κ}
  {xs left right others : List β} {pivot : β}
  {sort : List β → Option (List β)}

theorem Sorts.exists_arranges (h : Sorts below sort) (hg : GoesBy below key xs) :
    ∃ ys, sort xs = some ys ∧ Arranges key xs ys := by
  obtain ⟨ys, hs⟩ := h.complete hg
  exact ⟨ys, hs, (h.sound hs).arranges hg⟩

theorem medianPlace_lt {xs : List β} {i j k n : Nat} (hi : i < n) (hj : j < n) (hk : k < n) :
    medianPlace below xs i j k < n := by
  unfold medianPlace
  split_ifs
  · exact hj
  · exact hk
  · exact hi

theorem pivotPlace_lt (xs : List β) {size i j k n : Nat} (hsize : 0 < size) (hi : i + size ≤ n)
    (hj : j + size ≤ n) (hk : k + size ≤ n) : pivotPlace below xs size i j k < n := by
  induction size using Nat.strong_induction_on generalizing i j k with
  | _ size ih =>
    rw [pivotPlace]
    split
    next h8 =>
      have hpart {start : Nat} (hs : start + size ≤ n) :
          pivotPlace below xs (size / 8) start (start + size / 8 * 4) (start + size / 8 * 7) < n :=
        ih (size / 8) (by omega) (by omega) (by omega) (by omega) (by omega)
      exact medianPlace_lt (hpart hi) (hpart hj) (hpart hk)
    next => exact medianPlace_lt (by omega) (by omega) (by omega)

theorem splitAround_perm (test : β → Bool) (place : Nat) (first : Bool) (xs : List β) :
    ((splitAround test place first xs).1 ++ (splitAround test place first xs).2).Perm xs := by
  simp only [splitAround, List.partition_eq_filter_filter, ← List.map_append]
  have hp := (List.filter_append_perm
    (fun e : β × Nat => if e.2 = place then first else test e.1) xs.zipIdx).map Prod.fst
  rwa [List.zipIdx_map_fst] at hp

theorem splitAround_eq (test : β → Bool) {place : Nat} {first : Bool} {x : β}
    (hx : xs[place]? = some x) (ht : test x = first) :
    splitAround test place first xs = (xs.filter test, xs.filter fun x => !test x) := by
  have hall : ∀ e ∈ xs.zipIdx, (if e.2 = place then first else test e.1) = test e.1 := by
    rintro ⟨y, i⟩ he
    have hy := List.mem_zipIdx_iff_getElem?.mp he
    split
    next hi =>
      subst hi
      rw [← ht, Option.some.inj (hx.symm.trans hy)]
    next => rfl
  have hnot : ∀ e ∈ xs.zipIdx,
      (not ∘ fun e : β × Nat => if e.2 = place then first else test e.1) e = !test e.1 :=
    fun e he => congrArg not (hall e he)
  have hsplit (p : β → Bool) : (xs.zipIdx.filter fun e => p e.1).map Prod.fst = xs.filter p := by
    conv_rhs => rw [← List.zipIdx_map_fst 0 xs, List.filter_map]
    rfl
  simp only [splitAround, List.partition_eq_filter_filter]
  rw [List.filter_congr hall, List.filter_congr hnot, hsplit, hsplit fun x => !test x]

theorem quicksort_perm (below : β → β → Bool) (room limit : Nat) (bound : Option β) (xs : List β) :
    ∀ {ys : List β}, quicksort below room limit bound xs = some ys → ys.Perm xs := by
  have hsmall := smallSort_sorts below
  induction limit generalizing bound xs with
  | zero =>
    intro ys h
    rw [quicksort] at h
    split_ifs at h
    · exact (hsmall.sound h).perm
    · exact ((sortRuns_sorts hsmall room true).sound h).perm
  | succ limit ih =>
    intro ys h
    rw [quicksort] at h
    split_ifs at h
    · exact (hsmall.sound h).perm
    · obtain ⟨pivot, -, h⟩ := Option.bind_eq_some_iff.mp h
      dsimp only at h
      split_ifs at h
      · obtain ⟨others, ho, h⟩ := Option.bind_eq_some_iff.mp h
        obtain rfl := Option.some.inj h
        exact ((ih none _ ho).append_left _).trans (splitAround_perm _ _ _ xs)
      · obtain ⟨right, hr, h⟩ := Option.bind_eq_some_iff.mp h
        obtain ⟨left, hl, h⟩ := Option.bind_eq_some_iff.mp h
        obtain rfl := Option.some.inj h
        exact ((ih _ _ hl).append (ih _ _ hr)).trans (splitAround_perm _ _ _ xs)

theorem quicksort_succ (hg : GoesBy below key xs) (hlen : 32 < xs.length) (room limit : Nat)
    (bound : Option β) : ∃ pivot ∈ xs, quicksort below room (limit + 1) bound xs =
      if bound.any (fun b => !below b pivot) || (xs.filter fun x => below x pivot).isEmpty then do
        let sorted ← quicksort below room limit none (xs.filter fun x => !!below pivot x)
        return (xs.filter fun x => !below pivot x) ++ sorted
      else do
        let right ← quicksort below room limit (some pivot) (xs.filter fun x => !below x pivot)
        let left ← quicksort below room limit bound (xs.filter fun x => below x pivot)
        return left ++ right := by
  obtain ⟨place, hplace⟩ : ∃ place, pivotPlace below xs (xs.length / 8) 0 (xs.length / 8 * 4)
      (xs.length / 8 * 7) = place := ⟨_, rfl⟩
  have hlt : place < xs.length := by
    rw [← hplace]
    exact pivotPlace_lt xs (by omega) (by omega) (by omega) (by omega)
  have hpivot := List.getElem?_eq_getElem hlt
  have hmem := List.getElem_mem hlt
  generalize xs[place] = pivot at hpivot hmem
  have hself : below pivot pivot = false := by simp [hg pivot hmem pivot hmem]
  refine ⟨pivot, hmem, ?_⟩
  rw [quicksort, if_neg (by omega)]
  dsimp only
  rw [hplace, hpivot]
  dsimp only [Option.bind_eq_bind, Option.bind_some]
  rw [splitAround_eq (fun x => below x pivot) hpivot hself,
    splitAround_eq (fun x => !below pivot x) hpivot (by rw [hself]; rfl)]

theorem Arranges.around (hg : GoesBy below key xs) (hp : pivot ∈ xs)
    (hl : Arranges key (xs.filter fun x => below x pivot) left)
    (hr : Arranges key (xs.filter fun x => !below x pivot) right) :
    Arranges key xs (left ++ right) := by
  have hlt : ∀ x ∈ xs, ∀ y ∈ xs, below x pivot = true → below y pivot = false → key x < key y := by
    intro x hx y hy hbx hby
    rw [hg x hx pivot hp, decide_eq_true_eq] at hbx
    rw [hg y hy pivot hp, decide_eq_false_iff_not] at hby
    exact hbx.trans_le (le_of_not_gt hby)
  refine (hl.append hr fun x hx y hy => ?_).of_ties
    (Ties.filter _ fun x hx y hy hbx hby => (hlt x hx y hy hbx hby).ne)
  obtain ⟨hx, hbx⟩ := List.mem_filter.mp hx
  obtain ⟨hy, hby⟩ := List.mem_filter.mp hy
  exact (hlt x hx y hy hbx (by simpa using hby)).le

theorem Arranges.least (hg : GoesBy below key xs) (hp : pivot ∈ xs)
    (hle : ∀ x ∈ xs, key pivot ≤ key x)
    (hr : Arranges key (xs.filter fun x => !!below pivot x) others) :
    Arranges key xs ((xs.filter fun x => !below pivot x) ++ others) := by
  have heq : ∀ x ∈ xs, (!below pivot x) = true → key x = key pivot := by
    intro x hx hb
    rw [hg.not_below hx hp, decide_eq_true_eq] at hb
    exact le_antisymm hb (hle x hx)
  have hsame :
      Arranges key (xs.filter fun x => !below pivot x) (xs.filter fun x => !below pivot x) := by
    refine ⟨List.pairwise_of_forall_mem_list fun x hx y hy => ?_, Ties.refl _ _⟩
    obtain ⟨hx, hbx⟩ := List.mem_filter.mp hx
    obtain ⟨hy, hby⟩ := List.mem_filter.mp hy
    rw [heq x hx hbx, heq y hy hby]
  refine (hsame.append hr fun x hx y hy => ?_).of_ties (Ties.filter _ fun x hx y hy hbx hby => ?_)
  · obtain ⟨hx, hbx⟩ := List.mem_filter.mp hx
    rw [heq x hx hbx]
    exact hle y (List.mem_of_mem_filter hy)
  · rw [heq x hx hbx]
    rw [hg.not_below hy hp, decide_eq_false_iff_not] at hby
    exact (lt_of_not_ge hby).ne

theorem pivot_least {bound : Option β} (hg : GoesBy below key (bound.toList ++ xs))
    (hb : ∀ b ∈ bound, ∀ x ∈ xs, key b ≤ key x) (hp : pivot ∈ xs)
    (h : (bound.any (fun b => !below b pivot) || (xs.filter fun x => below x pivot).isEmpty) = true) :
    ∀ x ∈ xs, key pivot ≤ key x := by
  intro x hx
  rcases (Bool.or_eq_true _ _).mp h with hany | hnone
  · obtain ⟨b, rfl, hn⟩ := (Option.any_eq_true _ _).mp hany
    rw [hg.not_below (by simp [hp]) (by simp), decide_eq_true_eq] at hn
    exact hn.trans (hb b rfl x hx)
  · have hnot := List.filter_eq_nil_iff.mp (List.isEmpty_iff.mp hnone) x hx
    simpa [hg x (by simp [hx]) pivot (by simp [hp])] using hnot

theorem quicksort_arranges (room limit : Nat) (bound : Option β)
    (hg : GoesBy below key (bound.toList ++ xs)) (hb : ∀ b ∈ bound, ∀ x ∈ xs, key b ≤ key x) :
    ∃ ys, quicksort below room limit bound xs = some ys ∧ Arranges key xs ys := by
  have hsmall := smallSort_sorts below
  have hxs : GoesBy below key xs := hg.mono (List.subset_append_right _ xs)
  induction limit generalizing bound xs with
  | zero =>
    rw [quicksort]
    split_ifs
    · exact hsmall.exists_arranges hxs
    · exact (sortRuns_sorts hsmall room true).exists_arranges hxs
  | succ limit ih =>
    have hsub (p : β → Bool) : xs.filter p ⊆ xs := fun _ => List.mem_of_mem_filter
    by_cases hlen : xs.length ≤ 32
    · rw [quicksort, if_pos hlen]
      exact hsmall.exists_arranges hxs
    · obtain ⟨pivot, hp, he⟩ := quicksort_succ hxs (by omega) room limit bound
      rw [he]
      split_ifs with hleast
      · -- the pivot is not above the bound, or nothing is below it: it is the least element
        have hle := pivot_least hg hb hp hleast
        have hrest : GoesBy below key (xs.filter fun x => !!below pivot x) := hxs.mono (hsub _)
        obtain ⟨others, ho, ha⟩ := ih none hrest (by simp) hrest
        exact ⟨_, by rw [ho]; rfl, ha.least hxs hp hle⟩
      · have hr : GoesBy below key (pivot :: xs.filter fun x => !below x pivot) :=
          hxs.mono (List.cons_subset.mpr ⟨hp, hsub _⟩)
        have hl : GoesBy below key (bound.toList ++ xs.filter fun x => below x pivot) :=
          hg.mono (List.append_subset.mpr ⟨List.subset_append_left _ xs,
            List.subset_append_of_subset_right _ (hsub _)⟩)
        obtain ⟨right, hr', har⟩ := ih (some pivot) hr (by
          intro b hm x hx
          obtain rfl := Option.mem_some.mp hm
          obtain ⟨hx, hbx⟩ := List.mem_filter.mp hx
          rwa [hxs.not_below hp hx, decide_eq_true_eq] at hbx) (hxs.mono (hsub _))
        obtain ⟨left, hl', hal⟩ := ih bound hl (fun b hm x hx => hb b hm x (hsub _ hx))
          (hxs.mono (hsub _))
        exact ⟨_, by rw [hr', hl']; rfl, hal.around hxs hp har⟩

theorem quicksort_sorts (below : β → β → Bool) (room : Nat) (limit : List β → Nat) :
    Sorts below fun xs => quicksort below room (limit xs) none xs where
  sound {xs ys} h := by
    refine ⟨quicksort_perm below room _ none xs h, fun {κ _ key} hg => ?_⟩
    obtain ⟨zs, hz, ha⟩ := quicksort_arranges room (limit xs) none hg (by simp)
    exact Option.some.inj (h.symm.trans hz) ▸ ha
  complete {_ _ _ xs} hg :=
    (quicksort_arranges room (limit xs) none hg (by simp)).imp fun _ h => h.1

theorem standardSort_sorts (below : β → β → Bool) : Sorts below (standardSort below) where
  sound {xs ys} h := by
    unfold standardSort at h
    split_ifs at h
    · exact Option.some.inj h ▸ insertionSort_sortOf below xs
    · exact (sortRuns_sorts (quicksort_sorts below _ _) _ _).sound h
  complete {_ _ _ xs} hg := by
    unfold standardSort
    split_ifs
    · exact ⟨_, rfl⟩
    · exact (sortRuns_sorts (quicksort_sorts below _ _) _ _).complete hg

/-- A short list is sorted by insertion, and so is in effect every list whose comparison goes by a
key. -/
theorem standardSort_eq (h : xs.length ≤ 20 ∨
    ∃ (κ : Type) (_ : LinearOrder κ) (key : β → κ), GoesBy below key xs) :
    standardSort below xs = some (insertionSort below xs) := by
  rcases h with hlen | ⟨κ, _, key, hg⟩
  · exact if_pos hlen
  · obtain ⟨ys, hs, ha⟩ := (standardSort_sorts below).exists_arranges hg
    rw [hs, ha.unique ((insertionSort_sortOf below xs).arranges hg)]

end Federation
