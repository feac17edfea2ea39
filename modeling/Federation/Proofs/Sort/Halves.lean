import Federation.Proofs.Sort.Merging

/-!
# Merging from both ends

The merge of two halves from both ends moves elements only if the ends meet, and they do if the
comparison goes by a key. From there to the sort of short lists it is insertion.
-/

set_option autoImplicit false

namespace Federation

variable {β κ : Type} [LinearOrder κ] {below : β → β → Bool} {key : β → κ}
  {xs ys zs l r l' r' m s m' s' front back : List β}

theorem eq_append_of_length_succ (h : l ++ l' = m ++ m') (hlen : m.length = l.length + 1) :
    ∃ x, m = l ++ [x] ∧ l' = x :: m' := by
  obtain ⟨rest, rfl, rfl⟩ | ⟨rest, rfl, rfl⟩ := List.append_eq_append_iff.mp h
  · simp only [List.length_append] at hlen
    obtain ⟨x, rfl⟩ := List.length_eq_one_iff.mp (show rest.length = 1 by omega)
    exact ⟨x, rfl, rfl⟩
  · simp only [List.length_append] at hlen
    omega

theorem Merged.of_cuts (hfront : front.Perm (l ++ r)) (hback : back.Perm (l' ++ r'))
    (hone : (m ++ s).length ≤ 1)
    (hkey : ∀ {κ : Type} [LinearOrder κ] {key : β → κ},
      GoesBy below key ((l ++ (m ++ l')) ++ (r ++ (s ++ r'))) → Ascends key (l ++ (m ++ l')) →
      Ascends key (r ++ (s ++ r')) →
      (Arranges key (l ++ r) front ∧ Cut key l r (m ++ l') (s ++ r')) ∧
        Arranges key (l' ++ r') back ∧ Cut key (l ++ m) (r ++ s) l' r') :
    Merged below (l ++ (m ++ l')) (r ++ (s ++ r')) (front ++ (m ++ s) ++ back) := by
  refine ⟨((hfront.append_right _).append hback).trans ?_, fun {κ _ key} h hl hr => ?_⟩
  · classical
    refine List.perm_iff_count.mpr fun x => ?_
    simp only [List.count_append]
    omega
  · obtain ⟨⟨hf, hc⟩, hb, hc'⟩ := hkey h hl hr
    have hle := hc.le hl hr
    have hle' := hc'.le (by simpa using hl) (by simpa using hr)
    have hmid : Arranges key (m ++ s) (m ++ s) :=
      ⟨.of_length_le_one hone, Ties.refl key _⟩
    have ha := hf.append (hmid.append hb fun x hx y hy => hle' x (by simp_all; tauto) y hy)
      fun x hx y hy => hle x hx y (by simp_all; tauto)
    rw [List.append_assoc (front)]
    refine ha.of_ties (hc.ties.trans ((Ties.refl key _).append ?_))
    exact Ties.middle fun x hx y hy => (hc'.right y (List.mem_append_right _ hy) x hx).ne'

theorem length_add_of_taken {count : Nat} {taken : List β} (hp : taken.Perm (l ++ r))
    (hend : taken.length = count ∨ l' = [] ∨ r' = []) (hle : taken.length ≤ count)
    (hl : count ≤ l.length + l'.length) (hr : count ≤ r.length + r'.length) :
    l.length + r.length = count := by
  have htotal := hp.length_eq
  rw [List.length_append] at htotal
  rcases hend with hend | rfl | rfl
  · omega
  · rw [List.length_nil] at hl
    omega
  · rw [List.length_nil] at hr
    omega

theorem mergeEnds_spec (below : β → β → Bool)
    (hlen : ys.length = xs.length ∨ ys.length = xs.length + 1) :
    (∀ zs, mergeEnds below xs ys = some zs → Merged below xs ys zs) ∧
    ∀ {κ : Type} [LinearOrder κ] {key : β → κ}, GoesBy below key (xs ++ ys) → Ascends key xs →
      Ascends key ys → ∃ zs, mergeEnds below xs ys = some zs := by
  obtain ⟨l, r, l', r', front, he, hx, hy, hp, hle, hend, hkey⟩ :=
    mergeFronts_eq below xs.length xs ys
  obtain ⟨m, s, m', s', back, he', hx', hy', hp', hle', hend', hkey'⟩ :=
    mergeBacks_eq below xs.length xs ys
  have hxl : l.length + l'.length = xs.length := by rw [hx, List.length_append]
  have hyl : r.length + r'.length = ys.length := by rw [hy, List.length_append]
  have hxm : m.length + m'.length = xs.length := by rw [hx', List.length_append]
  have hys : s.length + s'.length = ys.length := by rw [hy', List.length_append]
  have hfull := length_add_of_taken hp hend hle (by omega) (by omega)
  have hfull' := length_add_of_taken hp' hend' hle' (by omega) (by omega)
  have heq : mergeEnds below xs ys =
      if ys.length = xs.length then
        if l'.length + m.length = xs.length then some (front ++ back) else none
      else if l'.length + m.length = xs.length then some (front ++ r'.take 1 ++ back)
      else if l'.length + m.length = xs.length + 1 then some (front ++ l'.take 1 ++ back)
      else none := by
    rw [mergeEnds, he, he']
    simp only [List.reverse_reverse, List.length_reverse]
  rw [heq]
  constructor
  · intro zs hzs
    split_ifs at hzs with hev hm hm hm
    · obtain ⟨rfl, rfl⟩ := List.append_inj (hx.symm.trans hx') (by omega)
      obtain ⟨rfl, rfl⟩ := List.append_inj (hy.symm.trans hy') (by omega)
      obtain rfl := Option.some.inj hzs
      subst hx hy
      simpa using Merged.of_cuts (m := []) (s := []) hp hp' (by simp) (fun h hs ht =>
        ⟨hkey h hs ht, by simpa using hkey' h hs ht⟩)
    · obtain ⟨rfl, rfl⟩ := List.append_inj (hx.symm.trans hx') (by omega)
      obtain ⟨y, rfl, rfl⟩ := eq_append_of_length_succ (hy.symm.trans hy') (by omega)
      obtain rfl := Option.some.inj hzs
      subst hx hy
      simpa using Merged.of_cuts (m := []) (s := [y]) hp hp' (by simp) (fun h hs ht =>
        ⟨hkey h hs ht, by simpa using hkey' h hs ht⟩)
    · obtain ⟨x, rfl, rfl⟩ := eq_append_of_length_succ (hx.symm.trans hx') (by omega)
      obtain ⟨rfl, rfl⟩ := List.append_inj (hy.symm.trans hy') (by omega)
      obtain rfl := Option.some.inj hzs
      subst hx hy
      simpa using Merged.of_cuts (m := [x]) (s := []) hp hp' (by simp) (fun h hs ht =>
        ⟨hkey h hs ht, by simpa using hkey' h hs ht⟩)
  · intro κ _ key h hs ht
    have hc := (hkey h hs ht).2.length_le (hkey' h hs ht).2 (hx.symm.trans hx')
      (hy.symm.trans hy') (by omega)
    split_ifs with hev hm hm hm
    all_goals first | exact ⟨_, rfl⟩ | (exfalso; omega)

theorem mergeEnds_sound (hl : SortOf below xs l) (hr : SortOf below ys r)
    (hlen : ys.length = xs.length ∨ ys.length = xs.length + 1) (h : mergeEnds below l r = some zs) :
    SortOf below (xs ++ ys) zs := by
  rw [← hl.perm.length_eq, ← hr.perm.length_eq] at hlen
  exact ((mergeEnds_spec below hlen).1 zs h).sortOf hl hr

theorem mergeEnds_complete (hl : SortOf below xs l) (hr : SortOf below ys r)
    (hlen : ys.length = xs.length ∨ ys.length = xs.length + 1) (hg : GoesBy below key (xs ++ ys)) :
    ∃ zs, mergeEnds below l r = some zs := by
  rw [← hl.perm.length_eq, ← hr.perm.length_eq] at hlen
  exact (mergeEnds_spec below hlen).2 (hg.mono (hl.perm.append hr.perm).subset)
    (hl.arranges (hg.mono (List.subset_append_left xs ys))).ascends
    (hr.arranges (hg.mono (List.subset_append_right xs ys))).ascends

theorem sortTwo_sortOf (below : β → β → Bool) (x y : β) :
    SortOf below [x, y] [(sortTwo below x y).1, (sortTwo below x y).2] := by
  unfold sortTwo
  split
  next hb =>
    refine ⟨.swap x y [], fun {κ _ key} h => ?_⟩
    have hlt : key y < key x := by simpa [h y (by simp) x (by simp)] using hb
    exact ⟨by simpa [Ascends] using hlt.le, Ties.swap hlt.ne' []⟩
  next hb =>
    refine ⟨.refl _, fun {κ _ key} h => ⟨?_, Ties.refl _ _⟩⟩
    simpa [Ascends, h y (by simp) x (by simp)] using hb

theorem mergeTwos_merged (below : β → β → Bool) (a b c d : β) :
    Merged below [a, b] [c, d] (mergeTwos below a b c d) := by
  constructor
  · classical
    refine List.perm_iff_count.mpr fun x => ?_
    simp only [mergeTwos]
    split_ifs <;> simp only [List.cons_append, List.nil_append, List.count_cons, List.count_nil] <;>
      omega
  · intro κ _ key h hab hcd
    have hab : key a ≤ key b := by simpa [Ascends] using hab
    have hcd : key c ≤ key d := by simpa [Ascends] using hcd
    have inner (hbc : key b ≠ key c) : Ties key [a, b, c, d] [a, c, b, d] :=
      (Ties.refl key [a]).append (Ties.swap hbc [d])
    have outer (hca : key c < key a) : Ties key [a, b, c, d] [c, a, b, d] :=
      (inner (hca.trans_le hab).ne').trans (Ties.swap hca.ne' [b, d])
    have sorted {v w x y : β} (hvw : key v ≤ key w) (hwx : key w ≤ key x) (hxy : key x ≤ key y) :
        Ascends key [v, w, x, y] := by
      simp [Ascends, hvw, hwx, hxy, hvw.trans hwx, hwx.trans hxy, hvw.trans (hwx.trans hxy)]
    simp only [mergeTwos, h c (by simp) a (by simp), h d (by simp) b (by simp), decide_eq_true_eq]
    rcases lt_or_ge (key c) (key a) with hca | hca <;>
      rcases lt_or_ge (key d) (key b) with hdb | hdb
    · simp only [hca, hdb, if_true, h d (by simp) a (by simp), decide_eq_true_eq]
      have hlast : Ties key [c, a, b, d] [c, a, d, b] :=
        (Ties.refl key [c, a]).append (Ties.swap hdb.ne' [])
      split_ifs with hda
      · exact ⟨sorted hcd hda.le hab, ((outer hca).trans hlast).trans
          ((Ties.refl key [c]).append (Ties.swap hda.ne' [b]))⟩
      · exact ⟨sorted hca.le (le_of_not_gt hda) hdb.le, (outer hca).trans hlast⟩
    · simp only [hca, hdb.not_gt, if_true, if_false, h b (by simp) a (by simp), decide_eq_true_eq,
        hab.not_gt]
      exact ⟨sorted hca.le hab hdb, outer hca⟩
    · simp only [hca.not_gt, hdb, if_true, if_false, h d (by simp) c (by simp), decide_eq_true_eq,
        hcd.not_gt]
      exact ⟨sorted hca hcd hdb.le, (inner (hcd.trans_lt hdb).ne').trans
        ((Ties.refl key [a, c]).append (Ties.swap hdb.ne' []))⟩
    · simp only [hca.not_gt, hdb.not_gt, if_false, h c (by simp) b (by simp), decide_eq_true_eq]
      split_ifs with hcb
      · exact ⟨sorted hca hcb.le hdb, inner hcb.ne'⟩
      · exact ⟨sorted hab (le_of_not_gt hcb) hcd, Ties.refl key _⟩

theorem sortFour_sortOf (below : β → β → Bool) (xs : List β) (h : xs.length = 4) :
    SortOf below xs (sortFour below xs) := by
  match xs, h with
  | [x₀, x₁, x₂, x₃], _ =>
    exact (mergeTwos_merged below _ _ _ _).sortOf (sortTwo_sortOf below x₀ x₁)
      (sortTwo_sortOf below x₂ x₃)

theorem sortEight_sound (h : xs.length = 8) (hs : sortEight below xs = some ys) :
    SortOf below xs ys := by
  rw [← List.take_append_drop 4 xs]
  exact mergeEnds_sound (sortFour_sortOf below _ (by simp [h]))
    (sortFour_sortOf below _ (by simp [h])) (.inl (by simp [h])) hs

theorem sortEight_complete (xs : List β) (h : xs.length = 8) (hg : GoesBy below key xs) :
    ∃ ys, sortEight below xs = some ys :=
  mergeEnds_complete (sortFour_sortOf below (xs.take 4) (by simp [h]))
    (sortFour_sortOf below (xs.drop 4) (by simp [h])) (.inl (by simp [h]))
    (by rwa [List.take_append_drop])

theorem sortHalf_sound {total : Nat} (h : total / 2 ≤ xs.length)
    (hs : sortHalf below total xs = some ys) : SortOf below xs ys := by
  unfold sortHalf at hs
  split_ifs at hs with h16 h8
  · obtain ⟨front, hf, hs⟩ := Option.bind_eq_some_iff.mp hs
    obtain rfl := Option.some.inj hs
    have hi := (sortEight_sound (by rw [List.length_take]; omega) hf).insertAll (xs.drop 8)
    rwa [List.take_append_drop] at hi
  · obtain rfl := Option.some.inj hs
    have hi := (sortFour_sortOf below (xs.take 4) (by rw [List.length_take]; omega)).insertAll
      (xs.drop 4)
    rwa [List.take_append_drop] at hi
  · obtain rfl := Option.some.inj hs
    have hi := (SortOf.of_length_le_one below (List.length_take_le 1 xs)).insertAll (xs.drop 1)
    rwa [List.take_append_drop] at hi

theorem sortHalf_complete {total : Nat} (h : total / 2 ≤ xs.length) (hg : GoesBy below key xs) :
    ∃ ys, sortHalf below total xs = some ys := by
  unfold sortHalf
  split_ifs with h16 h8
  · obtain ⟨front, hf⟩ := sortEight_complete (xs.take 8) (by rw [List.length_take]; omega)
      (hg.mono (List.take_subset 8 xs))
    exact ⟨_, by rw [hf]; rfl⟩
  · exact ⟨_, rfl⟩
  · exact ⟨_, rfl⟩

theorem smallSort_sorts (below : β → β → Bool) : Sorts below (smallSort below) where
  sound {xs zs} h := by
    unfold smallSort at h
    split_ifs at h with hlen
    · obtain rfl := Option.some.inj h
      exact SortOf.of_length_le_one below (by omega)
    · obtain ⟨l, hl, h⟩ := Option.bind_eq_some_iff.mp h
      obtain ⟨r, hr, h⟩ := Option.bind_eq_some_iff.mp h
      rw [← List.take_append_drop (xs.length / 2) xs]
      refine mergeEnds_sound (sortHalf_sound ?_ hl) (sortHalf_sound ?_ hr) ?_ h
      all_goals simp only [List.length_take, List.length_drop]; omega
  complete {_ _ key xs} hg := by
    unfold smallSort
    split_ifs with hlen
    · exact ⟨xs, rfl⟩
    · have htake : xs.length / 2 ≤ (xs.take (xs.length / 2)).length := by
        rw [List.length_take]
        omega
      have hdrop : xs.length / 2 ≤ (xs.drop (xs.length / 2)).length := by
        rw [List.length_drop]
        omega
      obtain ⟨l, hl⟩ := sortHalf_complete htake (hg.mono (List.take_subset _ xs))
      obtain ⟨r, hr⟩ := sortHalf_complete hdrop (hg.mono (List.drop_subset _ xs))
      obtain ⟨zs, hz⟩ := mergeEnds_complete (sortHalf_sound htake hl) (sortHalf_sound hdrop hr)
        (by simp only [List.length_take, List.length_drop]; omega)
        (by rwa [List.take_append_drop])
      exact ⟨zs, by rw [hl, hr]; exact hz⟩

end Federation
