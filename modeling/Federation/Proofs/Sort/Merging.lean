import Federation.Sort.Short
import Federation.Proofs.Sort.Arrangement

/-!
# Inserting and merging

What is taken from the fronts of two sorted lists cuts each of them in two. A merge from both ends
makes two cuts, which are the same but for one element if the comparison goes by a key.
-/

set_option autoImplicit false

namespace Federation

variable {β κ : Type} [LinearOrder κ] {below : β → β → Bool} {key : β → κ}
  {xs ys zs l r l' r' m s m' s' : List β}

theorem insertBack_perm (below : β → β → Bool) (x : β) (xs : List β) :
    (insertBack below x xs).Perm (x :: xs) := by
  induction xs with
  | nil => exact .refl _
  | cons y ys ih =>
    rw [insertBack]
    split
    · exact (ih.cons y).trans (.swap x y ys)
    · exact .refl _

theorem insertBack_arranges (x : β) (h : GoesBy below key (x :: xs))
    (hs : Ascends (fun x => OrderDual.toDual (key x)) xs) :
    Arranges (fun x => OrderDual.toDual (key x)) (x :: xs) (insertBack below x xs) := by
  induction xs with
  | nil => exact Arranges.singleton _ x
  | cons y ys ih =>
    rw [insertBack]
    split
    next hb =>
      have hlt : key x < key y := by
        simpa [h x List.mem_cons_self y (.tail _ List.mem_cons_self)] using hb
      have hi := ih (h.mono (List.cons_subset_cons x (List.subset_cons_self y ys))) hs.of_cons
      refine ((Arranges.singleton _ y).append hi fun a ha b hm => ?_).of_ties
        (Ties.swap (by simpa using hlt.ne) ys)
      obtain rfl := List.mem_singleton.mp ha
      rcases List.mem_cons.mp hm with rfl | hm
      · exact hlt.le
      · exact List.rel_of_pairwise_cons hs hm
    next hb =>
      have hle : key y ≤ key x := by
        simpa [h x List.mem_cons_self y (.tail _ List.mem_cons_self)] using hb
      refine ⟨List.pairwise_cons.mpr ⟨fun z hz => ?_, hs⟩, Ties.refl _ _⟩
      rcases List.mem_cons.mp hz with rfl | hz
      · exact hle
      · exact (show key z ≤ key y from List.rel_of_pairwise_cons hs hz).trans hle

theorem foldl_insertBack_perm (below : β → β → Bool) (xs back : List β) :
    (xs.foldl (fun back x => insertBack below x back) back).Perm (back ++ xs) := by
  induction xs generalizing back with
  | nil => simp
  | cons x xs ih =>
    refine (ih _).trans (((insertBack_perm below x back).append_right xs).trans ?_)
    exact List.perm_middle.symm

theorem insertAll_perm (below : β → β → Bool) (xs ys : List β) :
    (insertAll below xs ys).Perm (xs ++ ys) :=
  ((List.reverse_perm _).trans (foldl_insertBack_perm below ys xs.reverse)).trans
    ((List.reverse_perm xs).append_right ys)

theorem insertAll_arranges (h : GoesBy below key (xs ++ ys)) (hs : Ascends key xs) :
    Arranges key (xs ++ ys) (insertAll below xs ys) := by
  suffices hb : ∀ back : List β, GoesBy below key (back ++ ys) →
      Ascends (fun x => OrderDual.toDual (key x)) back →
      Arranges (fun x => OrderDual.toDual (key x)) (ys.reverse ++ back)
        (ys.foldl (fun back x => insertBack below x back) back) by
    refine Arranges.reverse ?_
    rw [List.reverse_append]
    exact hb _ (h.mono (by simp)) hs.reverse
  clear h hs
  induction ys with
  | nil => exact fun back _ hs => ⟨hs, Ties.refl _ _⟩
  | cons y ys ih =>
    intro back h hs
    have hi := insertBack_arranges y (h.mono (by simp)) hs
    have hmem : ∀ z, z ∈ insertBack below y back ++ ys → z ∈ back ++ y :: ys := fun z hz => by
      have hp := ((insertBack_perm below y back).append_right ys).mem_iff.mp hz
      simp only [List.mem_append, List.mem_cons] at hp ⊢
      tauto
    refine (ih _ (h.mono hmem) hi.ascends).of_ties ?_
    rw [List.reverse_cons, List.append_assoc]
    exact (Ties.refl _ _).append hi.ties

theorem SortOf.insertAll (h : SortOf below xs zs) (ys : List β) :
    SortOf below (xs ++ ys) (insertAll below zs ys) := by
  refine ⟨(insertAll_perm below zs ys).trans (h.perm.append_right ys), fun {κ _ key} hg => ?_⟩
  have ha := h.arranges (hg.mono (List.subset_append_left xs ys))
  have hs : zs ++ ys ⊆ xs ++ ys := (h.perm.append_right ys).subset
  exact (insertAll_arranges (hg.mono hs) ha.ascends).of_ties (ha.ties.append (Ties.refl key ys))

theorem insertionSort_sortOf (below : β → β → Bool) (xs : List β) :
    SortOf below xs (insertionSort below xs) :=
  (SortOf.nil below).insertAll xs

/-- Two sorted lists `l ++ l'` and `r ++ r'` are cut: what is in front is not above what is behind,
and of equal elements those of the first list are in front. -/
structure Cut (key : β → κ) (l r l' r' : List β) : Prop where
  left : ∀ x ∈ l, ∀ y ∈ r', key x ≤ key y
  right : ∀ y ∈ r, ∀ x ∈ l', key y < key x

theorem Cut.le (h : Cut key l r l' r') (hl : Ascends key (l ++ l')) (hr : Ascends key (r ++ r')) :
    ∀ x ∈ l ++ r, ∀ y ∈ l' ++ r', key x ≤ key y := by
  intro x hx y hy
  rcases List.mem_append.mp hx with hx | hx <;> rcases List.mem_append.mp hy with hy | hy
  · exact hl.le x hx y hy
  · exact h.left x hx y hy
  · exact (h.right x hx y hy).le
  · exact hr.le x hx y hy

theorem Cut.ties (h : Cut key l r l' r') :
    Ties key ((l ++ l') ++ (r ++ r')) ((l ++ r) ++ (l' ++ r')) :=
  Ties.middle fun x hx y hy => (h.right y hy x hx).ne'

theorem exists_between (h : l ++ l' = m ++ m') (hlen : m.length < l.length) :
    ∃ x ∈ l, x ∈ m' := by
  obtain ⟨rest, rfl, rfl⟩ | ⟨rest, rfl, rfl⟩ := List.append_eq_append_iff.mp h
  · simp only [List.length_append] at hlen
    omega
  · match rest with
    | [] => simp at hlen
    | x :: rest => exact ⟨x, by simp, by simp⟩

theorem Cut.length_le (h : Cut key l r l' r') (h' : Cut key m s m' s') (hl : l ++ l' = m ++ m')
    (hr : r ++ r' = s ++ s') (hlen : l.length + r.length ≤ m.length + s.length) :
    l.length ≤ m.length ∧ r.length ≤ s.length := by
  refine ⟨Nat.le_of_not_lt fun hlt => ?_, Nat.le_of_not_lt fun hlt => ?_⟩
  · obtain ⟨x, hx, hx'⟩ := exists_between hl hlt
    obtain ⟨y, hy, hy'⟩ := exists_between hr.symm (by omega)
    exact absurd (h.left x hx y hy') (h'.right y hy x hx').not_ge
  · obtain ⟨y, hy, hy'⟩ := exists_between hr hlt
    obtain ⟨x, hx, hx'⟩ := exists_between hl.symm (by omega)
    exact absurd (h'.left x hx y hy') (h.right y hy x hx').not_ge

theorem Cut.push_left {x : β} (h : Cut key l r l' r') (hx : ∀ y ∈ r', key x ≤ key y) :
    Cut key (x :: l) r l' r' :=
  ⟨List.forall_mem_cons.mpr ⟨hx, h.left⟩, h.right⟩

theorem Cut.push_right {y : β} (h : Cut key l r l' r') (hy : ∀ x ∈ l', key y < key x) :
    Cut key l (y :: r) l' r' :=
  ⟨h.left, List.forall_mem_cons.mpr ⟨hy, h.right⟩⟩

theorem Arranges.push_left {x : β} (h : Arranges key (l ++ r) zs)
    (hx : ∀ z ∈ l ++ r, key x ≤ key z) : Arranges key (x :: l ++ r) (x :: zs) :=
  (Arranges.singleton key x).append h fun a ha b hb => by
    obtain rfl := List.mem_singleton.mp ha
    exact hx b hb

theorem Arranges.push_right {y : β} (h : Arranges key (l ++ r) zs) (hl : ∀ x ∈ l, key y < key x)
    (hr : ∀ z ∈ r, key y ≤ key z) : Arranges key (l ++ y :: r) (y :: zs) := by
  have hcons : Arranges key (y :: l ++ r) (y :: zs) :=
    h.push_left (List.forall_mem_append.mpr ⟨fun x hx => (hl x hx).le, hr⟩)
  have hcomm : Ties key (l ++ [y]) ([y] ++ l) := Ties.comm fun x hx z hz => by
    obtain rfl := List.mem_singleton.mp hz
    exact (hl x hx).ne'
  refine hcons.of_ties ?_
  simpa using hcomm.append (Ties.refl key r)

theorem mergeFronts_eq (below : β → β → Bool) (count : Nat) (xs ys : List β) :
    ∃ l r l' r' taken, mergeFronts below count xs ys = (taken, l', r') ∧ xs = l ++ l' ∧
      ys = r ++ r' ∧ taken.Perm (l ++ r) ∧ taken.length ≤ count ∧
      (taken.length = count ∨ l' = [] ∨ r' = []) ∧
      ∀ {κ : Type} [LinearOrder κ] {key : β → κ}, GoesBy below key (xs ++ ys) → Ascends key xs →
        Ascends key ys → Arranges key (l ++ r) taken ∧ Cut key l r l' r' := by
  fun_induction mergeFronts below count xs ys with
  | case1 count x xs y ys hb taken rest he ih =>
    obtain ⟨l, r, l', r', t, ht, hl, rfl, hp, hlen, hend, hkey⟩ := ih
    obtain ⟨rfl, rfl⟩ := Prod.mk.inj (he.symm.trans ht)
    refine ⟨l, y :: r, l', r', y :: taken, rfl, hl, rfl, (hp.cons y).trans List.perm_middle.symm,
      by simpa using hlen, by simpa using hend, fun {κ _ key} h hx hy => ?_⟩
    have hlt : key y < key x := by simpa [h y (by simp) x (by simp)] using hb
    have hleft : ∀ z ∈ l ++ l', key y < key z := by
      rw [← hl]
      exact List.forall_mem_cons.mpr
        ⟨hlt, fun z hz => hlt.trans_le (List.rel_of_pairwise_cons hx hz)⟩
    have hright : ∀ z ∈ r ++ r', key y ≤ key z := fun z => List.rel_of_pairwise_cons hy
    have hs : x :: xs ++ (r ++ r') ⊆ x :: xs ++ y :: (r ++ r') :=
      List.append_subset.mpr ⟨by simp, fun z hz => by simp_all⟩
    obtain ⟨ha, hc⟩ := hkey (h.mono hs) hx hy.of_cons
    rw [List.forall_mem_append] at hleft hright
    exact ⟨ha.push_right hleft.1 hright.1, hc.push_right hleft.2⟩
  | case2 count x xs y ys hb taken rest he ih =>
    obtain ⟨l, r, l', r', t, ht, rfl, hr, hp, hlen, hend, hkey⟩ := ih
    obtain ⟨rfl, rfl⟩ := Prod.mk.inj (he.symm.trans ht)
    refine ⟨x :: l, r, l', r', x :: taken, rfl, rfl, hr, hp.cons x, by simpa using hlen,
      by simpa using hend, fun {κ _ key} h hx hy => ?_⟩
    have hle : key x ≤ key y := by simpa [h y (by simp) x (by simp)] using hb
    have hright : ∀ z ∈ r ++ r', key x ≤ key z := by
      rw [← hr]
      exact List.forall_mem_cons.mpr
        ⟨hle, fun z hz => hle.trans (List.rel_of_pairwise_cons hy hz)⟩
    have hleft : ∀ z ∈ l ++ l', key x ≤ key z := fun z => List.rel_of_pairwise_cons hx
    obtain ⟨ha, hc⟩ := hkey (h.mono (by simp)) hx.of_cons hy
    rw [List.forall_mem_append] at hleft hright
    exact ⟨ha.push_left (List.forall_mem_append.mpr ⟨hleft.1, hright.1⟩), hc.push_left hright.2⟩
  | case3 count xs ys hnot =>
    refine ⟨[], [], xs, ys, [], rfl, rfl, rfl, .refl _, Nat.zero_le _, ?_, fun _ _ _ =>
      ⟨Arranges.nil _, by simp, by simp⟩⟩
    match count, xs, ys with
    | 0, _, _ => exact .inl rfl
    | _ + 1, [], _ => exact .inr (.inl rfl)
    | _ + 1, _ :: _, [] => exact .inr (.inr rfl)
    | count + 1, x :: xs, y :: ys => exact (hnot count x xs y ys rfl rfl rfl).elim

/-- The elements of two lists, put in order if the lists are. -/
structure Merged (below : β → β → Bool) (xs ys zs : List β) : Prop where
  perm : zs.Perm (xs ++ ys)
  arranges {κ : Type} [LinearOrder κ] {key : β → κ} : GoesBy below key (xs ++ ys) →
    Ascends key xs → Ascends key ys → Arranges key (xs ++ ys) zs

theorem Merged.sortOf (h : Merged below l r zs) (hl : SortOf below xs l) (hr : SortOf below ys r) :
    SortOf below (xs ++ ys) zs := by
  refine ⟨h.perm.trans (hl.perm.append hr.perm), fun {κ _ key} hg => ?_⟩
  have hal := hl.arranges (hg.mono (List.subset_append_left xs ys))
  have har := hr.arranges (hg.mono (List.subset_append_right xs ys))
  have hs : l ++ r ⊆ xs ++ ys := (hl.perm.append hr.perm).subset
  exact (h.arranges (hg.mono hs) hal.ascends har.ascends).of_ties (hal.ties.append har.ties)

theorem mergeForward_merged (below : β → β → Bool) (xs ys : List β) :
    Merged below xs ys (mergeForward below xs ys) := by
  obtain ⟨l, r, l', r', taken, he, rfl, rfl, hp, hlen, hend, hkey⟩ :=
    mergeFronts_eq below (xs.length + ys.length) xs ys
  have hperm : (taken ++ (l' ++ r')).Perm ((l ++ l') ++ (r ++ r')) := by
    refine (hp.append_right (l' ++ r')).trans ?_
    simp only [List.append_assoc]
    refine List.Perm.append_left l ?_
    simp only [← List.append_assoc]
    exact List.perm_append_comm.append_right r'
  rw [mergeForward, he]
  dsimp only
  rw [List.append_assoc]
  refine ⟨hperm, fun {κ _ key} h hl hr => ?_⟩
  obtain ⟨ha, hc⟩ := hkey h hl hr
  refine Arranges.of_ties (ha.append ⟨?_, Ties.refl key _⟩ (hc.le hl hr)) hc.ties
  rcases hend with hfull | rfl | rfl
  · have htotal := hp.length_eq
    simp only [List.length_append] at hfull htotal
    obtain rfl : l' = [] := List.length_eq_zero_iff.mp (by omega)
    exact hr.right
  · exact hr.right
  · simpa using hl.right

theorem merge_merged (below : β → β → Bool) (xs ys : List β) :
    Merged below xs ys (merge below xs ys) := by
  rw [merge]
  split
  · exact mergeForward_merged below xs ys
  · have hm := mergeForward_merged (fun x y => below y x) ys.reverse xs.reverse
    refine ⟨(List.reverse_perm _).trans (hm.perm.trans ?_), fun {κ _ key} h hx hy => ?_⟩
    · rw [← List.reverse_append]
      exact List.reverse_perm _
    · have ha := hm.arranges (by simpa only [List.reverse_append] using h.reverse) hy.reverse
        hx.reverse
      rw [← List.reverse_append] at ha
      exact ha.reverse

theorem mergeBacks_eq (below : β → β → Bool) (count : Nat) (xs ys : List β) :
    ∃ l r l' r' taken, mergeFronts (fun x y => below y x) count ys.reverse xs.reverse =
        (taken.reverse, r.reverse, l.reverse) ∧ xs = l ++ l' ∧ ys = r ++ r' ∧
      taken.Perm (l' ++ r') ∧ taken.length ≤ count ∧
      (taken.length = count ∨ l = [] ∨ r = []) ∧
      ∀ {κ : Type} [LinearOrder κ] {key : β → κ}, GoesBy below key (xs ++ ys) → Ascends key xs →
        Ascends key ys → Arranges key (l' ++ r') taken ∧ Cut key l r l' r' := by
  obtain ⟨a, b, a', b', taken, he, hy, hx, hp, hlen, hend, hkey⟩ :=
    mergeFronts_eq (fun x y => below y x) count ys.reverse xs.reverse
  refine ⟨b'.reverse, a'.reverse, b.reverse, a.reverse, taken.reverse, by simpa using he,
    ?_, ?_, ?_, by simpa using hlen, by simpa [or_comm] using hend, fun {κ _ key} h hs ht => ?_⟩
  · rw [← List.reverse_append, ← hx, List.reverse_reverse]
  · rw [← List.reverse_append, ← hy, List.reverse_reverse]
  · rw [← List.reverse_append]
    exact (List.reverse_perm _).trans (hp.trans (List.reverse_perm _).symm)
  · obtain ⟨ha, hc⟩ := hkey (by simpa only [List.reverse_append] using h.reverse) ht.reverse
      hs.reverse
    rw [← List.reverse_append]
    refine ⟨Arranges.reverse (by rwa [List.reverse_reverse]), fun x hx y hy => ?_,
      fun y hy x hx => ?_⟩
    · exact hc.left y (List.mem_reverse.mp hy) x (List.mem_reverse.mp hx)
    · exact hc.right x (List.mem_reverse.mp hx) y (List.mem_reverse.mp hy)

end Federation
