import Federation.Proofs.Averages
import Federation.Proofs.Ranking

/-!
# The order of the clients

A central majority does not depend on the order in which the clients stand. The table of distances
is reordered with them, since a distance is the same from both sides; a sum over a sorted row does
not see how the row was ordered before; and a selection that ends between two different scores
selects all clients up to the lower one, wherever they stand.
-/

set_option autoImplicit false

namespace Federation

theorem map_range_eq_map {β : Type} {order : List Nat} {g g' : Nat → β}
    (h : ∀ i p : Nat, order[i]? = some p → g' i = g p) :
    (List.range order.length).map g' = order.map g := by
  apply List.ext_getElem
  · simp
  · intro i hi hi'
    rw [List.getElem_map, List.getElem_map, List.getElem_range]
    exact h i _ (List.getElem?_eq_getElem _)

namespace Central

open Binary FloatFormat
open Average (chosen)

variable {updates : List (Params Single)} {order : List Nat} {cell cell' : Nat → Nat → Double}
  {i j p q : Nat} {d : Double}

section Order

variable (horder : order.Perm (List.range updates.length))

include horder

theorem lt_of_mem_order : ∀ p ∈ order, p < updates.length := fun _ hp =>
  List.mem_range.mp (horder.mem_iff.mp hp)

theorem length_order : order.length = updates.length := by
  rw [horder.length_eq, List.length_range]

theorem length_reordered : (chosen updates order).length = updates.length := by
  rw [Average.length_chosen (lt_of_mem_order horder), length_order horder]

theorem apart_reordered_iff (hp : order[i]? = some p) (hq : order[j]? = some q) :
    Apart (chosen updates order) i j d ↔ Apart updates p q d := by
  have hlt := lt_of_mem_order horder
  unfold Apart
  rw [Average.getElem?_chosen hlt, Average.getElem?_chosen hlt, hp, hq, Option.bind_some,
    Option.bind_some]

theorem place_lt (hp : order[i]? = some p) : i < updates.length ∧ p < updates.length := by
  rw [← length_order horder]
  exact ⟨(List.getElem?_eq_some_iff.mp hp).1,
    length_order horder ▸ lt_of_mem_order horder p (List.mem_of_getElem? hp)⟩

theorem order_at (hi : i < updates.length) : ∃ p, order[i]? = some p :=
  ⟨_, List.getElem?_eq_getElem (length_order horder ▸ hi)⟩

theorem order_injective (hp : order[i]? = some p) (hq : order[j]? = some p) : i = j := by
  have hnodup : order.Nodup := horder.nodup_iff.mpr List.nodup_range
  obtain ⟨hi, rfl⟩ := List.getElem?_eq_some_iff.mp hp
  obtain ⟨hj, he⟩ := List.getElem?_eq_some_iff.mp hq
  exact ((hnodup.getElem_inj_iff).mp he).symm

theorem comparable_reordered (hc : Comparable updates) : Comparable (chosen updates order) := by
  intro i j d hij ha
  obtain ⟨hi, hj⟩ := ha.lt_length
  rw [length_reordered horder] at hi hj
  obtain ⟨p, hp⟩ := order_at horder hi
  obtain ⟨q, hq⟩ := order_at horder hj
  refine hc p q d ?_ ((apart_reordered_iff horder hp hq).mp ha)
  rintro rfl
  exact hij (order_injective horder hp hq)

section Cells

variable (h : Cells updates cell) (h' : Cells (chosen updates order) cell')

include h h'

theorem Cells.cell_reordered (hp : order[i]? = some p) (hq : order[j]? = some q) :
    cell' i j = cell p q := by
  by_cases hij : i = j
  · subst hij
    have hpq : p = q := Option.some.inj (hp.symm.trans hq)
    rw [hpq, h.diagonal, h'.diagonal]
  · have hpq : p ≠ q := by
      rintro rfl
      exact hij (order_injective horder hp hq)
    have hl := length_reordered horder
    obtain ⟨hi, hip⟩ := place_lt horder hp
    obtain ⟨hj, hjq⟩ := place_lt horder hq
    have hold := h.apart p q hip hjq hpq
    have hnew := h'.apart i j (by omega) (by omega) hij
    have hmoved := (apart_reordered_iff horder hp hq).mp hnew
    exact Option.some.inj ((apart_iff.mp hmoved).symm.trans (apart_iff.mp hold))

theorem Cells.row_reordered (hp : order[i]? = some p) :
    ((List.range updates.length).map (cell' i)).Perm
      ((List.range updates.length).map (cell p)) := by
  rw [← length_order horder, map_range_eq_map fun j q => h.cell_reordered horder h' hp,
    length_order horder]
  exact horder.map (cell p)

end Cells

end Order

theorem Cells.layout_eq (h : Cells updates cell) :
    ∀ u ∈ updates, ∀ v ∈ updates, u.layout = v.layout := by
  intro u hu v hv
  obtain ⟨i, hi, rfl⟩ := List.mem_iff_getElem.mp hu
  obtain ⟨j, hj, rfl⟩ := List.mem_iff_getElem.mp hv
  by_cases hij : i = j
  · subst hij
    rfl
  · obtain ⟨a, b, ha, hb, hd⟩ := h.apart i j hi hj hij
    rw [List.getElem?_eq_getElem hi] at ha
    rw [List.getElem?_eq_getElem hj] at hb
    cases ha
    cases hb
    exact (Params.distance_ok_iff.mp hd).1

theorem entry?_eq {table : Matrix Double} {n : Nat}
    (h : table.rows = (List.range n).map fun i => (List.range n).map (cell i)) (hi : i < n)
    (hj : j < n) : table.entry? i j = some (cell i j) := by
  simp [Matrix.entry?, h, hi, hj]

theorem size_of_distances {table : Matrix Double} (h : distances updates = .ok table) :
    table.size = (updates.length, updates.length) := by
  rw [Matrix.size, Pairwise.height_table h, Pairwise.width_table h]

theorem distances_reordered {table : Matrix Double}
    (horder : order.Perm (List.range updates.length)) (h : distances updates = .ok table) :
    ∃ table', distances (chosen updates order) = .ok table' ∧ table'.size = table.size ∧
      ∀ i j p q : Nat, order[i]? = some p → order[j]? = some q →
        table'.entry? i j = table.entry? p q := by
  have hl := length_reordered horder
  obtain ⟨cell, hcells, hrows⟩ := rows_of_distances h
  have hlayout : ∀ u ∈ chosen updates order, ∀ v ∈ chosen updates order, u.layout = v.layout :=
    fun u hu v hv => hcells.layout_eq u (Average.mem_of_mem_chosen hu) v
      (Average.mem_of_mem_chosen hv)
  obtain ⟨table', h'⟩ := distances_exist hlayout
  obtain ⟨cell', hcells', hrows'⟩ := rows_of_distances h'
  refine ⟨table', h', ?_, fun i j p q hp hq => ?_⟩
  · rw [size_of_distances h, size_of_distances h', hl]
  · rw [hl] at hrows'
    obtain ⟨hi, hip⟩ := place_lt horder hp
    obtain ⟨hj, hjq⟩ := place_lt horder hq
    rw [entry?_eq hrows' hi hj, entry?_eq hrows hip hjq,
      hcells.cell_reordered horder hcells' hp hq]

theorem sorted_ranks_of_perm {row row' : List Double} (hp : row.Perm row')
    (h : ∀ x ∈ row, x.HasRank x.rank) :
    (insertionSort Binary.lt row).map rank = (insertionSort Binary.lt row').map rank := by
  have h' : ∀ x ∈ row', x.HasRank x.rank := fun x hx => h x (hp.mem_iff.mpr hx)
  exact map_key_insertionSort_congr (lt_eq_rank h) (lt_eq_rank h') (hp.map rank)

theorem nearSum_rank_of_perm {row row' : List Double} (k : Nat) (hp : row.Perm row')
    (h : ∀ x ∈ row, x.HasRank x.rank) :
    (nearSum k row).rank = (nearSum k row').rank := by
  have h' : ∀ x ∈ row', x.HasRank x.rank := fun x hx => h x (hp.mem_iff.mpr hx)
  rw [(score_tally k h).rank_eq, (score_tally k h').rank_eq, List.map_take, List.map_take,
    sorted_ranks_of_perm hp h]

section Order

variable (horder : order.Perm (List.range updates.length)) (h : Cells updates cell)
  (h' : Cells (chosen updates order) cell') (hc : Comparable updates)

include horder h h' hc

theorem Cells.cellScore_reordered (k : Nat) (hp : order[i]? = some p) :
    (cellScore cell' updates.length k i).rank = (cellScore cell updates.length k p).rank := by
  have hlt : p < updates.length := lt_of_mem_order horder p (List.mem_of_getElem? hp)
  exact (nearSum_rank_of_perm k (h.row_reordered horder h' hp).symm
    (h.row_hasRank hc hlt)).symm

theorem Cells.countP_reordered (k bound : Nat) :
    (((List.range updates.length).map (cellScore cell' updates.length k)).countP fun s =>
        decide (s.rank ≤ bound))
      = ((List.range updates.length).map (cellScore cell updates.length k)).countP fun s =>
        decide (s.rank ≤ bound) := by
  have hranks := map_range_eq_map fun i p => h.cellScore_reordered horder h' hc k
  rw [length_order horder] at hranks
  have hperm := horder.map fun p => (cellScore cell updates.length k p).rank
  have hcount := hperm.countP_eq fun r => decide (r ≤ bound)
  rw [← hranks, List.countP_map, List.countP_map] at hcount
  rw [List.countP_map, List.countP_map]
  exact hcount

end Order

/-- The last score that is selected and the first one that is left out are different. -/
def Parted (count : Nat) (scores : List Double) : Prop :=
  ∃ s ∈ (insertionSort Binary.lt scores)[count - 1]?,
    ∃ t ∈ (insertionSort Binary.lt scores)[count]?, s.eq t = false

instance (count : Nat) (scores : List Double) : Decidable (Parted count scores) :=
  inferInstanceAs (Decidable (∃ s ∈ _, ∃ t ∈ _, _))

theorem Parted.exists_bound {count : Nat} {scores : List Double} (hp : Parted count scores)
    (hcount : 0 < count) (h : ∀ s ∈ scores, s.HasRank s.rank) :
    ∃ bound, (scores.countP fun s => decide (s.rank ≤ bound)) = count := by
  obtain ⟨s, hs, t, ht, hne⟩ := hp
  obtain ⟨hi, rfl⟩ := List.getElem?_eq_some_iff.mp hs
  obtain ⟨hj, rfl⟩ := List.getElem?_eq_some_iff.mp ht
  have hsorted := insertionSort_ascends (lt_eq_rank h)
  have hat : ∀ x ∈ insertionSort Binary.lt scores, x.HasRank x.rank := fun x hx =>
    h x (mem_insertionSort.mp hx)
  rw [(hat _ (List.getElem_mem hi)).eq_eq (hat _ (List.getElem_mem hj)),
    decide_eq_false_iff_not] at hne
  have hle := List.pairwise_iff_getElem.mp hsorted (count - 1) count hi hj (by omega)
  obtain ⟨m, rfl⟩ : ∃ m, count = m + 1 := ⟨count - 1, by omega⟩
  have hrise := countP_of_rise hsorted hj (lt_of_le_of_ne hle hne)
  rw [(insertionSort_perm Binary.lt scores).countP_eq] at hrise
  exact ⟨_, hrise⟩

theorem exists_bound {faulty n : Nat} {scores : List Double} (hn : scores.length = n)
    (hf : faulty < n) (hcut : faulty = 0 ∨ Parted (n - faulty) scores)
    (h : ∀ s ∈ scores, s.HasRank s.rank) :
    ∃ bound, (scores.countP fun s => decide (s.rank ≤ bound)) = n - faulty := by
  rcases hcut with rfl | hparted
  · rw [← hn]
    exact ⟨double.top, List.countP_eq_length.mpr fun s hs => decide_eq_true (h s hs).le_top⟩
  · exact hparted.exists_bound (Nat.sub_pos_of_lt hf) h

theorem mem_lowest_iff_rank_le {count bound : Nat} {scores : List Double} {s : Double}
    (h : ∀ s ∈ scores, s.HasRank s.rank)
    (hcount : (scores.countP fun s => decide (s.rank ≤ bound)) = count)
    (hs : scores[i]? = some s) : i ∈ lowest count scores ↔ s.rank ≤ bound := by
  have hlen : ((List.range scores.length).filter fun i =>
      scores[i]?.any fun s => decide (s.rank ≤ bound)).length = count := by
    rw [← List.countP_eq_length_filter, countP_range_getElem?, hcount]
  have hsub : lowest count scores ⊆ (List.range scores.length).filter fun i =>
      scores[i]?.any fun s => decide (s.rank ≤ bound) := by
    intro j hj
    obtain ⟨t, ht, hle⟩ := rank_le_of_mem_lowest h hcount.ge hj
    have hlt := (List.getElem?_eq_some_iff.mp ht).1
    refine List.mem_filter.mpr ⟨List.mem_range.mpr hlt, ?_⟩
    rw [ht]
    exact decide_eq_true hle
  -- as many places are selected as have such a score, so these are all
  have hfew : count ≤ scores.length := hcount ▸ List.countP_le_length
  have hperm := ((nodup_lowest count scores).subperm hsub).perm_of_length_le (by
    rw [hlen, length_lowest]
    omega)
  rw [hperm.mem_iff, List.mem_filter, hs, List.mem_range]
  simp [(List.getElem?_eq_some_iff.mp hs).1]

/-- A selection does not depend on the order of the clients: `order` lists the old places in their
new order. Without invalid distances the distances are the same bit by bit, the scores are equal,
and if no two equal scores are parted by the cut, the same clients are selected. -/
theorem select_reordered (r : Central) (updates : List (Params Single)) (order : List Nat)
    (selected : List Nat) (scores : List Double) (horder : order.Perm (List.range updates.length))
    (hc : Comparable updates) (h : (r.select updates).result = .ok (selected, scores)) :
    ∃ table table' selected' scores', distances updates = .ok table ∧
      distances (chosen updates order) = .ok table' ∧
      (r.select (chosen updates order)).result = .ok (selected', scores') ∧
      table'.size = table.size ∧
      (∀ i j p q : Nat, order[i]? = some p → order[j]? = some q →
        table'.entry? i j = table.entry? p q) ∧
      scores'.length = scores.length ∧
      (∀ i p : Nat, order[i]? = some p → ∃ s s' : Double, scores[p]? = some s ∧
        scores'[i]? = some s' ∧ s'.eq s = true) ∧
      (r.faulty updates.length = 0 ∨ Parted (updates.length - r.faulty updates.length) scores →
        ∀ i p : Nat, order[i]? = some p → (i ∈ selected' ↔ p ∈ selected)) := by
  have hf := faulty_le_of_select h
  have hl := length_reordered horder
  have hc' := comparable_reordered horder hc
  obtain ⟨table, cell, ht, hcells, -, hscores, hmem⟩ := select_table (.inr hc) h
  obtain ⟨table', ht', hsize, hentry⟩ := distances_reordered horder ht
  obtain ⟨_, _, _, hn, -⟩ := selectBy_ok_iff.mp h
  obtain ⟨selected', scores', h'⟩ : ∃ selected' scores',
      (r.select (chosen updates order)).result = .ok (selected', scores') := by
    refine select_exists r (.inr hc') (fun u hu v hv => hcells.layout_eq u
      (Average.mem_of_mem_chosen hu) v (Average.mem_of_mem_chosen hv)) ?_ ?_
    · rw [hl]
      exact (neighbourCount?_eq_some_iff.mp hn).1
    · rwa [hl]
  obtain ⟨-, cell', -, hcells', -, hscores', hmem'⟩ := select_table (.inr hc') h'
  rw [hl] at hscores' hmem'
  have hlength : scores.length = updates.length := by
    rw [hscores, List.length_map, List.length_range]
  have hranked : ∀ s ∈ scores, s.HasRank s.rank := hscores ▸ hcells.scores_hasRank hc _
  have hranked' : ∀ s ∈ scores', s.HasRank s.rank := by
    rw [hscores', ← hl]
    exact hcells'.scores_hasRank hc' _
  have hscore : ∀ i p : Nat, order[i]? = some p → ∃ s s' : Double, scores[p]? = some s ∧
      scores'[i]? = some s' ∧ s'.rank = s.rank := by
    intro i p hp
    obtain ⟨hi, hlt⟩ := place_lt horder hp
    exact ⟨_, _, getElem?_scores hscores hlt, getElem?_scores hscores' hi,
      hcells.cellScore_reordered horder hcells' hc _ hp⟩
  refine ⟨table, table', selected', scores', ht, ht', h', hsize, hentry,
    by simp [hscores, hscores'], ?_, ?_⟩
  · intro i p hp
    obtain ⟨s, s', hs, hs', hrank⟩ := hscore i p hp
    refine ⟨s, s', hs, hs', ?_⟩
    rw [(hranked' s' (List.mem_of_getElem? hs')).eq_eq (hranked s (List.mem_of_getElem? hs)),
      decide_eq_true hrank]
  · intro hcut i p hp
    obtain ⟨s, s', hs, hs', hrank⟩ := hscore i p hp
    obtain ⟨bound, hbound⟩ := exists_bound hlength (by omega) hcut hranked
    have hbound' := hcells.countP_reordered horder hcells' hc
      (updates.length - r.faulty updates.length - 2) bound
    rw [← hscores, ← hscores', hbound] at hbound'
    rw [hmem, hmem', mem_lowest_iff_rank_le hranked hbound hs,
      mem_lowest_iff_rank_le hranked' hbound' hs', hrank]

theorem select_reordered_duplicated :
    ∃ selected scores selected' scores',
      ((⟨.ofNat 1, .ofNat 0, none⟩ : Central).select duplicated).result = .ok (selected, scores) ∧
      ((⟨.ofNat 1, .ofNat 0, none⟩ : Central).select
        (chosen duplicated [2, 0, 1, 4, 3])).result = .ok (selected', scores') ∧
      (1 ∈ selected' ↔ 0 ∈ selected) := by
  obtain ⟨⟨selected, scores⟩, h, hparted⟩ := exists_of_toOption
    (show ((⟨.ofNat 1, .ofNat 0, none⟩ : Central).select duplicated).result.toOption.any
      (fun e => decide (Parted 4 e.2)) = true by decide +kernel)
  have horder : [2, 0, 1, 4, 3].Perm (List.range duplicated.length) := by decide
  obtain ⟨-, -, selected', scores', -, -, h', -, -, -, -, hsame⟩ := select_reordered
    ⟨.ofNat 1, .ofNat 0, none⟩ duplicated [2, 0, 1, 4, 3] selected scores horder
    (by decide +kernel) h
  exact ⟨selected, scores, selected', scores', h, h',
    hsame (Or.inr (of_decide_eq_true hparted)) 1 0 rfl⟩

end Central

end Federation
