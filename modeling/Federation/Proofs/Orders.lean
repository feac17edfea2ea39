import Federation.Proofs.Results
import Federation.Proofs.Sort.Insertion
import Federation.Proofs.Sort.Partition
import Federation.Rule.Central

/-!
# Orders of clients

Whatever order a sort puts the clients in, the first of them are listed by their indices, and a
search finds exactly those in the list.
-/

set_option autoImplicit false

namespace Federation

namespace Sorting

variable {β : Type} {sort : Sorting} {below : β → β → Bool} {xs ys : List β}

/-- Only moves elements, if it does not give up. -/
def Permutes (sort : Sorting) : Prop :=
  ∀ {β : Type} {below : β → β → Bool} {xs ys : List β}, sort.run below xs = some ys → ys.Perm xs

/-- Gives up on no comparison. -/
def Finishes (sort : Sorting) : Prop :=
  ∀ {β : Type} (below : β → β → Bool) (xs : List β), ∃ ys, sort.run below xs = some ys

def insertion : Sorting := ⟨fun below xs => some (insertionSort below xs)⟩

theorem insertion_permutes : insertion.Permutes :=
  fun h => Option.some.inj h ▸ insertionSort_perm _ _

theorem insertion_finishes : insertion.Finishes := fun _ _ => ⟨_, rfl⟩

theorem standard_permutes : standard.Permutes := fun h => ((standardSort_sorts _).sound h).perm

theorem sorted_ok_iff : sort.sorted below xs = .ok ys ↔ sort.run below xs = some ys := by
  unfold sorted
  cases sort.run below xs <;> simp

theorem sorted_error {fault : Fault} (h : sort.sorted below xs = .error fault) :
    fault = .contradictoryOrder := by
  unfold sorted at h
  cases hr : sort.run below xs <;> simp [hr] at h
  exact h.symm

theorem Permutes.sorted_perm (h : sort.Permutes) (hs : sort.sorted below xs = .ok ys) :
    ys.Perm xs := h (sorted_ok_iff.mp hs)

theorem Finishes.sorted_exists (h : sort.Finishes) (below : β → β → Bool) (xs : List β) :
    ∃ ys, sort.sorted below xs = .ok ys := (h below xs).imp fun _ => sorted_ok_iff.mpr

theorem sorted_of_length (h : xs.length ≤ 20) :
    standard.sorted below xs = .ok (insertionSort below xs) :=
  sorted_ok_iff.mpr (standardSort_eq (.inl h))

theorem sorted_of_key {κ : Type} [LinearOrder κ] {key : β → κ} (h : GoesBy below key xs) :
    standard.sorted below xs = .ok (insertionSort below xs) :=
  sorted_ok_iff.mpr (standardSort_eq (.inr ⟨κ, _, key, h⟩))

end Sorting

/-- Behind the place that a search ends at, all elements are above the sought one; the element at
the place is not, unless the place is the first. -/
theorem searchPlace_spec {xs : List Nat} (hs : xs.Pairwise (· ≤ ·)) (sought base size : Nat)
    (hlen : base + size ≤ xs.length)
    (hbase : base = 0 ∨ ∃ x, xs[base]? = some x ∧ x ≤ sought)
    (habove : ∀ p x, base + size ≤ p → xs[p]? = some x → sought < x) :
    (searchPlace xs sought base size = 0 ∨
      ∃ x, xs[searchPlace xs sought base size]? = some x ∧ x ≤ sought) ∧
    ∀ p x, searchPlace xs sought base size < p → xs[p]? = some x → sought < x := by
  fun_induction searchPlace xs sought base size with
  | case1 base size hsize hany ih =>
    obtain ⟨m, hm, hlt⟩ := (Option.any_eq_true _ _).mp hany
    obtain ⟨hml, rfl⟩ := List.getElem?_eq_some_iff.mp hm
    refine ih (by omega) hbase fun p x hp hx => ?_
    obtain ⟨hpl, rfl⟩ := List.getElem?_eq_some_iff.mp hx
    have hle : base + size / 2 ≤ p := by omega
    exact (of_decide_eq_true hlt).trans_le
      (hs.rel_get_of_le (a := ⟨_, hml⟩) (b := ⟨p, hpl⟩) hle)
  | case2 base size hsize hany ih =>
    have hml : base + size / 2 < xs.length := by omega
    rw [List.getElem?_eq_getElem hml] at hany
    refine ih (by omega) (.inr ⟨_, List.getElem?_eq_getElem hml, ?_⟩)
      fun p x hp hx => habove p x (by omega) hx
    simpa using hany
  | case3 base size hsize =>
    exact ⟨hbase, fun p x hp hx => habove p x (by omega) hx⟩

theorem isFound_iff {xs : List Nat} (hs : xs.Pairwise (· ≤ ·)) (sought : Nat) :
    isFound xs sought = true ↔ sought ∈ xs := by
  obtain ⟨hplace, habove⟩ := searchPlace_spec hs sought 0 xs.length (by omega) (.inl rfl)
    fun p x hp hx => by
      rw [List.getElem?_eq_none (by omega)] at hx
      cases hx
  rw [isFound, beq_iff_eq]
  generalize searchPlace xs sought 0 xs.length = place at hplace habove
  refine ⟨List.mem_of_getElem?, fun hmem => ?_⟩
  obtain ⟨p, hp⟩ := List.mem_iff_getElem?.mp hmem
  have hle : p ≤ place := Nat.le_of_not_lt fun h => absurd (habove p sought h hp) (Nat.lt_irrefl _)
  rcases hplace with rfl | ⟨x, hx, hxs⟩
  · rwa [Nat.le_zero.mp hle] at hp
  · obtain ⟨hpl, rfl⟩ := List.getElem?_eq_some_iff.mp hp
    obtain ⟨hxl, rfl⟩ := List.getElem?_eq_some_iff.mp hx
    rw [hx]
    have hge := hs.rel_get_of_le (a := ⟨p, hpl⟩) (b := ⟨place, hxl⟩) hle
    exact congrArg some (le_antisymm hxs hge)

theorem goesBy_index (xs : List Nat) : GoesBy (fun i j => decide (i < j)) id xs :=
  fun _ _ _ _ => rfl

theorem ascends_indices (xs : List Nat) :
    (insertionSort (fun i j => decide (i < j)) xs).Pairwise (· ≤ ·) :=
  insertionSort_ascends (goesBy_index xs)

theorem sort_take {order : List Nat} {n : Nat} (h : order.Perm (List.range n)) (count : Nat) :
    insertionSort (fun i j => decide (i < j)) (order.take count)
      = (List.range n).filter fun i => (order.take count).contains i := by
  have hnodup : (order.take count).Nodup :=
    (h.nodup_iff.mpr List.nodup_range).sublist (List.take_sublist _ _)
  have hrange : (List.range n).Pairwise (· ≤ ·) := List.pairwise_le_range
  refine List.Perm.eq_of_pairwise (fun _ _ _ _ => le_antisymm) (ascends_indices _)
    (hrange.filter _) ((insertionSort_perm _ _).trans ?_)
  refine (List.perm_ext_iff_of_nodup hnodup (List.nodup_range.filter _)).mpr fun i => ?_
  simp only [List.mem_filter, List.contains_iff_mem]
  exact ⟨fun hi => ⟨h.mem_iff.mp (List.mem_of_mem_take hi), hi⟩, fun hi => hi.2⟩

namespace Central

variable {sort : Sorting} {scores : List Double} {row : List Double} {order : List Nat}

theorem order_perm (h : sort.Permutes) (ho : Central.order sort scores = .ok order) :
    order.Perm (List.range scores.length) := by
  obtain ⟨sorted, hs, he⟩ := except_bind_ok_iff.mp ho
  obtain rfl := Except.ok.inj he
  have hp := (h.sorted_perm hs).map Prod.snd
  rwa [List.zipIdx_map_snd, ← List.range_eq_range'] at hp

theorem order_error {fault : Fault} (h : Central.order sort scores = .error fault) :
    fault = .contradictoryOrder := by
  rcases except_bind_error_iff.mp h with hs | ⟨_, -, he⟩
  · exact Sorting.sorted_error hs
  · cases he

theorem neighbourScores_error {table : Matrix Double} {neighbours : Nat} {fault : Fault}
    (h : neighbourScores sort table neighbours = .error fault) : fault = .contradictoryOrder := by
  obtain ⟨-, row, -, hrow, -⟩ := mapM_error_iff.mp h
  rcases except_bind_error_iff.mp hrow with hs | ⟨_, -, he⟩
  · exact Sorting.sorted_error hs
  · cases he

theorem order_exists (h : sort.Finishes) (scores : List Double) :
    ∃ order, Central.order sort scores = .ok order := by
  obtain ⟨sorted, hs⟩ := h.sorted_exists (fun a b : Double × Nat => a.1.lt b.1) scores.zipIdx
  exact ⟨_, except_bind_ok_iff.mpr ⟨sorted, hs, rfl⟩⟩

theorem neighbourScores_exists (h : sort.Finishes) (table : Matrix Double) (neighbours : Nat) :
    ∃ scores, neighbourScores sort table neighbours = .ok scores := by
  refine mapM_ok_of_forall fun row _ => ?_
  obtain ⟨sorted, hs⟩ := h.sorted_exists Binary.lt row
  exact ⟨_, except_bind_ok_iff.mpr ⟨sorted, hs, rfl⟩⟩

end Central

end Federation
