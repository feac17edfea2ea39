import Mathlib.Data.List.Basic
import Mathlib.Order.Lattice
import Mathlib.Order.OrderDual

/-!
# Arrangements

A stable sort by a key puts a list in ascending order of the key and leaves the elements of each key
in the order they had. There is only one such arrangement of a list.
-/

set_option autoImplicit false

namespace Federation

variable {β κ : Type} [LinearOrder κ] {below : β → β → Bool} {key : β → κ} {xs ys zs vs ws : List β}

/-- The comparison of the elements of a list goes by a key. -/
def GoesBy (below : β → β → Bool) (key : β → κ) (xs : List β) : Prop :=
  ∀ x ∈ xs, ∀ y ∈ xs, below x y = decide (key x < key y)

def Ascends (key : β → κ) (xs : List β) : Prop := xs.Pairwise fun x y => key x ≤ key y

/-- Elements of one key stand in one order in two lists. -/
def Ties (key : β → κ) (xs ys : List β) : Prop :=
  ∀ k, xs.filter (fun x => decide (key x = k)) = ys.filter fun x => decide (key x = k)

structure Arranges (key : β → κ) (xs ys : List β) : Prop where
  ascends : Ascends key ys
  ties : Ties key xs ys

theorem GoesBy.mono (h : GoesBy below key xs) (hs : ys ⊆ xs) : GoesBy below key ys :=
  fun x hx y hy => h x (hs hx) y (hs hy)

theorem GoesBy.not_below (h : GoesBy below key xs) {x y : β} (hx : x ∈ xs) (hy : y ∈ xs) :
    (!below y x) = decide (key x ≤ key y) := by
  rw [h y hy x hx, ← decide_not]
  exact decide_eq_decide.mpr not_lt

theorem GoesBy.reverse (h : GoesBy below key xs) :
    GoesBy (fun x y => below y x) (fun x => OrderDual.toDual (key x)) xs.reverse :=
  fun x hx y hy => h y (List.mem_reverse.mp hy) x (List.mem_reverse.mp hx)

theorem Ascends.append (hx : Ascends key xs) (hy : Ascends key ys)
    (h : ∀ x ∈ xs, ∀ y ∈ ys, key x ≤ key y) : Ascends key (xs ++ ys) :=
  List.pairwise_append.mpr ⟨hx, hy, h⟩

theorem Ascends.of_length_le_one (h : xs.length ≤ 1) : Ascends key xs :=
  match xs, h with
  | [], _ => .nil
  | [x], _ => List.pairwise_singleton _ x

theorem Ascends.right (h : Ascends key (xs ++ ys)) : Ascends key ys :=
  (List.pairwise_append.mp h).2.1

theorem Ascends.le (h : Ascends key (xs ++ ys)) : ∀ x ∈ xs, ∀ y ∈ ys, key x ≤ key y :=
  (List.pairwise_append.mp h).2.2

theorem Ascends.reverse (h : Ascends key xs) :
    Ascends (fun x => OrderDual.toDual (key x)) xs.reverse := List.pairwise_reverse.mpr h

theorem Ties.refl (key : β → κ) (xs : List β) : Ties key xs xs := fun _ => rfl

theorem Ties.symm (h : Ties key xs ys) : Ties key ys xs := fun k => (h k).symm

theorem Ties.trans (h : Ties key xs ys) (h' : Ties key ys zs) : Ties key xs zs :=
  fun k => (h k).trans (h' k)

theorem Ties.append (h : Ties key xs ys) (h' : Ties key vs ws) :
    Ties key (xs ++ vs) (ys ++ ws) := by
  intro k
  rw [List.filter_append, List.filter_append, h k, h' k]

theorem Ties.mem_iff (h : Ties key xs ys) {x : β} : x ∈ xs ↔ x ∈ ys := by
  have hx := congrArg (x ∈ ·) (h (key x))
  simpa using hx

theorem Ties.comm (h : ∀ x ∈ xs, ∀ y ∈ ys, key x ≠ key y) :
    Ties key (xs ++ ys) (ys ++ xs) := by
  intro k
  rw [List.filter_append, List.filter_append]
  by_cases hx : ∃ x ∈ xs, key x = k
  · obtain ⟨x, hx, rfl⟩ := hx
    have hy : ys.filter (fun y => decide (key y = key x)) = [] :=
      List.filter_eq_nil_iff.mpr fun y hy => by simpa using (h x hx y hy).symm
    rw [hy, List.append_nil, List.nil_append]
  · have hn : xs.filter (fun x => decide (key x = k)) = [] :=
      List.filter_eq_nil_iff.mpr fun x hm => by simpa using fun he => hx ⟨x, hm, he⟩
    rw [hn, List.append_nil, List.nil_append]

theorem Ties.middle (h : ∀ y ∈ ys, ∀ z ∈ zs, key y ≠ key z) :
    Ties key ((xs ++ ys) ++ (zs ++ ws)) ((xs ++ zs) ++ (ys ++ ws)) := by
  have hm := ((Ties.refl key xs).append (Ties.comm h)).append (Ties.refl key ws)
  simpa only [List.append_assoc] using hm

theorem Ties.swap {x y : β} (h : key x ≠ key y) (xs : List β) :
    Ties key (x :: y :: xs) (y :: x :: xs) := by
  have hc : Ties key ([x] ++ [y]) ([y] ++ [x]) := Ties.comm (by simpa using h)
  exact hc.append (Ties.refl key xs)

theorem Arranges.of_ties (h : Arranges key ys zs) (ht : Ties key xs ys) : Arranges key xs zs :=
  ⟨h.ascends, ht.trans h.ties⟩

theorem Arranges.append (hx : Arranges key xs vs) (hy : Arranges key ys ws)
    (h : ∀ x ∈ xs, ∀ y ∈ ys, key x ≤ key y) : Arranges key (xs ++ ys) (vs ++ ws) :=
  ⟨hx.ascends.append hy.ascends fun x hm y hn => h x (hx.ties.mem_iff.mpr hm) y
    (hy.ties.mem_iff.mpr hn), hx.ties.append hy.ties⟩

theorem Arranges.singleton (key : β → κ) (x : β) : Arranges key [x] [x] :=
  ⟨List.pairwise_singleton _ x, Ties.refl key [x]⟩

theorem Arranges.nil (key : β → κ) : Arranges key [] [] := ⟨.nil, Ties.refl key []⟩

theorem Arranges.reverse (h : Arranges (fun x => OrderDual.toDual (key x)) xs.reverse ys) :
    Arranges key xs ys.reverse := by
  refine ⟨List.pairwise_reverse.mpr h.ascends, fun k => ?_⟩
  have hk := congrArg List.reverse (h.ties (OrderDual.toDual k))
  rw [List.filter_reverse, List.reverse_reverse, ← List.filter_reverse] at hk
  exact hk

theorem Ascends.filter_lt {x : β} (h : Ascends key (x :: xs)) {k : κ} (hk : k < key x) :
    (x :: xs).filter (fun y => decide (key y = k)) = [] := by
  refine List.filter_eq_nil_iff.mpr fun y hy => ?_
  have hle : key x ≤ key y := by
    rcases List.mem_cons.mp hy with rfl | hy
    · exact le_rfl
    · exact List.rel_of_pairwise_cons h hy
  simpa using (lt_of_lt_of_le hk hle).ne'

theorem Ties.eq_of_ascends (hties : Ties key ys zs) (hy : Ascends key ys) (hz : Ascends key zs) :
    ys = zs := by
  induction ys generalizing zs with
  | nil =>
    refine (List.eq_nil_iff_forall_not_mem.mpr fun z hm => ?_).symm
    exact List.not_mem_nil (hties.mem_iff.mpr hm)
  | cons y ys ih =>
    cases zs with
    | nil => exact absurd (hties.mem_iff.mp List.mem_cons_self) List.not_mem_nil
    | cons z zs =>
      have hkey : key y = key z := by
        refine le_antisymm (le_of_not_gt fun hlt => ?_) (le_of_not_gt fun hlt => ?_)
        · have hfirst := hties (key z)
          rw [hy.filter_lt hlt] at hfirst
          simp at hfirst
        · have hfirst := hties (key y)
          rw [hz.filter_lt hlt] at hfirst
          simp at hfirst
      have hfirst := hties (key y)
      rw [List.filter_cons_of_pos (by simp), List.filter_cons_of_pos (by simp [hkey])] at hfirst
      obtain rfl := (List.cons.inj hfirst).1
      refine congrArg (y :: ·) (ih (fun k => ?_) hy.of_cons hz.of_cons)
      have hk := hties k
      by_cases hyk : key y = k
      · rw [List.filter_cons_of_pos (by simpa using hyk),
          List.filter_cons_of_pos (by simpa using hyk)] at hk
        exact (List.cons.inj hk).2
      · rwa [List.filter_cons_of_neg (by simpa using hyk),
          List.filter_cons_of_neg (by simpa using hyk)] at hk

theorem Arranges.unique (h : Arranges key xs ys) (h' : Arranges key xs zs) : ys = zs :=
  (h.ties.symm.trans h'.ties).eq_of_ascends h.ascends h'.ascends

theorem Ties.filter (test : β → Bool)
    (h : ∀ x ∈ xs, ∀ y ∈ xs, test x = true → test y = false → key x ≠ key y) :
    Ties key xs (xs.filter test ++ xs.filter fun x => !test x) := by
  intro k
  rw [List.filter_append, List.filter_filter, List.filter_filter]
  by_cases hx : ∃ x ∈ xs, test x = true ∧ key x = k
  · obtain ⟨x, hm, ht, rfl⟩ := hx
    have hall : ∀ y ∈ xs, key y = key x → test y = true := fun y hy he => by
      by_contra hn
      exact h x hm y hy ht (by simpa using hn) he.symm
    rw [List.filter_eq_nil_iff.mpr (show ∀ y ∈ xs, ¬((decide (key y = key x) && !test y) = true) by
      intro y hy he
      simp only [Bool.and_eq_true, decide_eq_true_eq, Bool.not_eq_true'] at he
      simp [hall y hy he.1] at he), List.append_nil]
    refine List.filter_congr fun y hy => ?_
    by_cases he : key y = key x
    · simp [he, hall y hy he]
    · simp [he]
  · rw [List.filter_eq_nil_iff.mpr (show ∀ y ∈ xs, ¬((decide (key y = k) && test y) = true) by
      intro y hy he
      simp only [Bool.and_eq_true, decide_eq_true_eq] at he
      exact hx ⟨y, hy, he.2, he.1⟩), List.nil_append]
    refine List.filter_congr fun y hy => ?_
    by_cases he : key y = k
    · have hn : test y = false := by
        by_contra hn
        exact hx ⟨y, hy, by simpa using hn, he⟩
      simp [he, hn]
    · simp [he]

/-- One list is the other sorted: its elements are only moved, and where the comparison goes by a
key they are arranged. -/
structure SortOf (below : β → β → Bool) (xs ys : List β) : Prop where
  perm : ys.Perm xs
  arranges {κ : Type} [LinearOrder κ] {key : β → κ} : GoesBy below key xs → Arranges key xs ys

theorem SortOf.of_length_le_one (below : β → β → Bool) (h : xs.length ≤ 1) : SortOf below xs xs :=
  ⟨.refl _, fun _ => ⟨.of_length_le_one h, .refl _ _⟩⟩

theorem SortOf.nil (below : β → β → Bool) : SortOf below [] [] :=
  .of_length_le_one below (Nat.zero_le 1)

/-- A function that sorts, or gives up where the comparison goes by no key. -/
structure Sorts (below : β → β → Bool) (sort : List β → Option (List β)) : Prop where
  sound {xs ys : List β} : sort xs = some ys → SortOf below xs ys
  complete {κ : Type} [LinearOrder κ] {key : β → κ} {xs : List β} :
    GoesBy below key xs → ∃ ys, sort xs = some ys

end Federation
