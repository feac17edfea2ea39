import Federation.Proofs.Selection
import Mathlib.Data.List.Sort

/-!
# The ranking of clients

A score sums the distances of a client to its nearest neighbours: the zero on the diagonal stands
first in the sorted row, and one more entry is summed than there are neighbours, so the client
itself does not count. The selected clients are the first in the order by score, and by index where
scores are equal.
-/

set_option autoImplicit false

namespace Federation.Central

open Binary FloatFormat

variable {updates : List (Params Single)} {i j : Nat}

/-- The distances of a client to the others, in the order of the clients. -/
def distancesFrom (updates : List (Params Single)) (i : Nat) : List Double :=
  ((List.range updates.length).filter fun j => j != i).filterMap (gap? updates i)

theorem Cells.distancesFrom_eq {cell : Nat → Nat → Double} (h : Cells updates cell)
    (hi : i < updates.length) :
    distancesFrom updates i
      = ((List.range updates.length).filter fun j => j != i).map (cell i) := by
  rw [distancesFrom, ← List.filterMap_eq_map]
  apply List.filterMap_congr
  intro j hj
  obtain ⟨hr, hne⟩ := List.mem_filter.mp hj
  have hij : i ≠ j := fun h => by simp [h] at hne
  exact apart_iff.mp (h.apart i j hi (List.mem_range.mp hr) hij)

theorem Cells.row_perm {cell : Nat → Nat → Double} (h : Cells updates cell)
    (hi : i < updates.length) :
    ((List.range updates.length).map (cell i)).Perm (zero :: distancesFrom updates i) := by
  have hp := (List.perm_cons_erase (List.mem_range.mpr hi)).map (cell i)
  rw [List.nodup_range.erase_eq_filter, List.map_cons, h.diagonal] at hp
  rwa [h.distancesFrom_eq hi]

theorem length_distancesFrom {cell : Nat → Nat → Double} (h : Cells updates cell)
    (hi : i < updates.length) : (distancesFrom updates i).length + 1 = updates.length := by
  have hl := (h.row_perm hi).length_eq
  simpa using hl.symm

section Row

variable {row others near : List Double} {k : Nat}

theorem ranks_of_row (hrow : row.Perm (zero :: others)) (h : ∀ x ∈ row, x.HasRank x.rank)
    (hperm : near.Perm others) (hsorted : near.Pairwise fun a b => b.lt a = false) :
    (insertionSort Binary.lt row).map rank = 0 :: near.map rank := by
  have hnear : ∀ x ∈ near, x.HasRank x.rank := fun x hx =>
    h x (hrow.mem_iff.mpr (List.mem_cons_of_mem _ (hperm.mem_iff.mp hx)))
  have hright : (0 :: near.map rank).Pairwise (· ≤ ·) := by
    refine List.pairwise_cons.mpr ⟨fun _ _ => Nat.zero_le _, List.pairwise_map.mpr ?_⟩
    refine hsorted.imp_of_mem fun {a b} ha hb hlt => ?_
    rw [(hnear b hb).lt_eq (hnear a ha), decide_eq_false_iff_not] at hlt
    exact Nat.le_of_not_lt hlt
  have hz : (zero : Double).rank = 0 := by decide
  have hp : (row.map rank).Perm (0 :: near.map rank) := by
    have hm := (hrow.trans (hperm.symm.cons zero)).map rank
    rwa [List.map_cons, hz] at hm
  exact map_key_insertionSort (lt_eq_rank h) hp hright

/-- The zero of the diagonal takes the place of the one entry too many. -/
theorem score_eq_sum (hk : k + 1 < Count.bound) (hrow : row.Perm (zero :: others))
    (h : ∀ x ∈ row, x.HasRank x.rank) (hperm : near.Perm others)
    (hsorted : near.Pairwise fun a b => b.lt a = false) :
    (nearSum k row).eq (Scalar.sum (near.take k)) = true := by
  have hranks := ranks_of_row hrow h hperm hsorted
  have hscore := score_hasRank hk h
  rw [List.map_take, hranks, List.take_succ_cons, tally_cons, double.plus_zero (Nat.zero_le _),
    ← List.map_take] at hscore
  have hsum : (Scalar.sum (near.take k)).HasRank (double.tally 0 ((near.take k).map rank)) := by
    refine hasRank_sum (List.forall₂_map_right_iff.mpr (List.forall₂_same.mpr fun x hx => ?_))
    have hm := hperm.mem_iff.mp (List.mem_of_mem_take hx)
    exact h x (hrow.mem_iff.mpr (List.mem_cons_of_mem _ hm))
  rw [hscore.eq_eq hsum, decide_eq_true rfl]

end Row

theorem zipIdx_ordered (scores : List Double) :
    scores.zipIdx.Pairwise fun a b => a.2 < b.2 := by
  rw [← List.pairwise_map (R := (· < ·)), List.zipIdx_map_snd]
  exact List.pairwise_lt_range'

theorem before_of_lowest {scores : List Double} {count : Nat} {s t : Double}
    (h : ∀ s ∈ scores, s.HasRank s.rank) (hi : i ∈ lowest count scores)
    (hj : j ∉ lowest count scores)
    (hs : scores[i]? = some s) (ht : scores[j]? = some t) :
    s.rank < t.rank ∨ (s.rank = t.rank ∧ i < j) := by
  have hsort := insertionSort_before (goesBy_zipIdx h) (zipIdx_ordered scores)
  have hmem : (t, j) ∈ insertionSort (fun a b : Double × Nat => a.1.lt b.1) scores.zipIdx :=
    mem_insertionSort.mpr (List.mem_zipIdx_iff_getElem?.mpr ht)
  rw [← List.take_append_drop count (insertionSort _ _)] at hsort hmem
  obtain ⟨⟨s', i'⟩, hx, rfl⟩ := List.mem_map.mp hi
  have hz := List.mem_zipIdx_iff_getElem?.mp (mem_insertionSort.mp (List.mem_of_mem_take hx))
  have hsame : s' = s := Option.some.inj (hz.symm.trans hs)
  subst hsame
  have hdrop := (List.mem_append.mp hmem).resolve_left fun hm =>
    hj (List.mem_map.mpr ⟨(t, j), hm, rfl⟩)
  exact (List.pairwise_append.mp hsort).2.2 _ hx _ hdrop

/-- What a selection is when no distance is invalid. A score is the sum, in ascending order, of the
distances to as many nearest others as there are neighbours. The selected clients, in ascending
order, come before all others by score, and by index where scores are equal. Clients are counted in
a word. -/
theorem select_ranks (r : Central) (updates : List (Params Single)) (selected : List Nat)
    (scores : List Double) (hword : updates.length < Count.bound) (hc : Comparable updates)
    (h : (r.select updates).result = .ok (selected, scores)) :
    scores.length = updates.length ∧
    (∀ (i : Nat) (s : Double) (near : List Double), scores[i]? = some s →
      near.Perm (distancesFrom updates i) → near.Pairwise (fun a b => b.lt a = false) →
        near.length + 1 = updates.length ∧
        s.eq (Scalar.sum (near.take (updates.length - r.faulty updates.length - 2))) = true) ∧
    selected.Pairwise (· < ·) ∧
    selected.length = updates.length - r.faulty updates.length ∧
    (∀ i ∈ selected, i < updates.length) ∧
    ∀ i ∈ selected, ∀ j, j ∉ selected → ∀ s t : Double, scores[i]? = some s → scores[j]? = some t →
      s.lt t = true ∨ (s.eq t = true ∧ i < j) := by
  obtain ⟨-, hf, order, -, -, hsel⟩ := selectBy_order Sorting.standard_permutes h
  obtain ⟨cell, hcells, hscores, hmem, hlen⟩ := select_cells (.inr hc) h
  have hk : updates.length - r.faulty updates.length - 2 + 1 < Count.bound := by omega
  have hranked : ∀ s ∈ scores, s.HasRank s.rank := hscores ▸ hcells.scores_hasRank hc _
  refine ⟨by simp [hscores], ?_, ?_, hlen, ?_, ?_⟩
  · intro i s near hs hperm hsorted
    obtain ⟨hlt, rfl⟩ := score_at hscores hs
    refine ⟨?_, score_eq_sum hk (hcells.row_perm hlt) (hcells.row_hasRank hc hlt) hperm hsorted⟩
    rw [hperm.length_eq, length_distancesFrom hcells hlt]
  · rw [hsel]
    exact List.pairwise_lt_range.filter _
  · intro i hi
    rw [hsel] at hi
    exact List.mem_range.mp (List.mem_of_mem_filter hi)
  · intro i hi j hj s t hs ht
    have hb := before_of_lowest hranked ((hmem i).mp hi) (fun h => hj ((hmem j).mpr h)) hs ht
    have hsr := hranked s (List.mem_of_getElem? hs)
    have htr := hranked t (List.mem_of_getElem? ht)
    rwa [hsr.lt_eq htr, hsr.eq_eq htr, decide_eq_true_eq, decide_eq_true_eq]

def duplicated : List (Params Single) := [5, 1, 2, 1, 3].map fun n => .vector [.ofNat n]

theorem select_ranks_duplicated :
    ∃ selected scores, ((⟨.ofNat 1, .ofNat 0, none⟩ : Central).select duplicated).result
        = .ok (selected, scores) ∧ selected.Pairwise (· < ·) ∧ selected.length = 4 := by
  have hlayout : ∀ p ∈ duplicated, ∀ q ∈ duplicated, p.layout = q.layout := by decide
  obtain ⟨selected, scores, h⟩ := select_exists ⟨.ofNat 1, .ofNat 0, none⟩ (.inl (by decide))
    hlayout (by decide) (by decide)
  obtain ⟨-, -, hascending, hlen, -⟩ := select_ranks ⟨.ofNat 1, .ofNat 0, none⟩ duplicated selected
    scores (by decide) (by decide +kernel) h
  exact ⟨selected, scores, h, hascending, hlen⟩

end Federation.Central
