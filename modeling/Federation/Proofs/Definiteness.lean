import Federation.Proofs.Float.Widening
import Federation.Proofs.Reordering

/-!
# Definite distances

Between finite updates a distance is a finite number, and it is zero exactly between updates that
agree in every entry: on the way from the entries no difference is lost and no sum outgrows its
bound, however many entries, tensors and clients there are. So the scores are finite as well, and
everything that a selection sorts can be compared.
-/

set_option autoImplicit false

namespace Federation

open Binary FloatFormat

namespace Euclid

theorem distance_vanishes_iff {v w : List Single} (hv : ∀ x ∈ v, x.isFinite = true)
    (hw : ∀ y ∈ w, y.isFinite = true) :
    (distance v w).HasRank 0 ↔ ∀ e ∈ v.zip w, e.1.eq e.2 = true := by
  have hu := squares_unsigned v w
  unfold distance
  rw [(unsigned_sum hu).sqrt_vanishes_iff, sum_vanishes_iff hu, forall_mem_zipWith]
  apply forall₂_congr
  intro e he
  obtain ⟨hx, hy⟩ := List.of_mem_zip he
  exact square_vanishes_iff (hv e.1 hx) (hw e.2 hy)

end Euclid

namespace Params

variable {p q : Params Single} {d : Double}

theorem zip_tensors {ps qs : List (Tensor Single)}
    (h : ps.map Tensor.shape = qs.map Tensor.shape) :
    (ps.flatMap Tensor.entries).zip (qs.flatMap Tensor.entries)
      = (ps.zip qs).flatMap fun e => e.1.entries.zip e.2.entries := by
  induction ps generalizing qs with
  | nil => rfl
  | cons p ps ih =>
    cases qs with
    | nil => simp at h
    | cons q qs =>
      have hl : p.entries.length = q.entries.length := by
        rw [p.length_entries, q.length_entries, (List.cons.inj h).1]
      rw [List.flatMap_cons, List.flatMap_cons, List.zip_append hl, ih (List.cons.inj h).2,
        List.zip_cons_cons, List.flatMap_cons]

theorem agrees_iff (h : p.layout = q.layout) :
    p.agrees q = true ↔ ∀ e ∈ p.tensors.zip q.tensors, ∀ x ∈ e.1.entries.zip e.2.entries,
      x.1.eq x.2 = true := by
  have hzip : p.flatten.zip q.flatten
      = (p.tensors.zip q.tensors).flatMap fun e => e.1.entries.zip e.2.entries := zip_tensors h
  simp only [agrees, h, decide_true, Bool.true_and, hzip, List.all_eq_true, List.mem_flatMap,
    forall_exists_index, and_imp]
  exact ⟨fun hall e he x hx => hall x e he hx, fun hall x e he hx => hall e he x hx⟩

theorem distance_vanishes_iff (hp : p.isFinite = true) (hq : q.isFinite = true)
    (h : p.distance q = .ok d) : d.HasRank 0 ↔ p.agrees q = true := by
  obtain ⟨hl, rfl⟩ := distance_ok_iff.mp h
  rw [agrees_iff hl, sum_vanishes_iff (terms_unsigned p.tensors q.tensors), forall_mem_zipWith]
  apply forall₂_congr
  intro e he
  obtain ⟨hs, ht⟩ := List.of_mem_zip he
  exact Euclid.distance_vanishes_iff (isFinite_iff.mp hp e.1 hs) (isFinite_iff.mp hq e.2 ht)

theorem agrees_self (h : p.isFinite = true) : p.agrees p = true := by
  have hself : ∀ x ∈ p.flatten, x.eq x = true := by
    intro x hx
    have hn := isNaN_of_isFinite (List.all_eq_true.mp h x hx)
    exact (eq_iff_amount hn hn).mpr rfl
  rw [agrees, decide_eq_true rfl, Bool.true_and, List.all_eq_true]
  intro e he
  obtain ⟨k, hk, rfl⟩ := List.mem_iff_getElem.mp he
  rw [List.getElem_zip]
  exact hself _ (List.getElem_mem _)

end Params

namespace Binary

/-- Some comparison of the two holds, so that neither is invalid. -/
def Ordered (x y : Double) : Prop := x.lt y = true ∨ x.eq y = true ∨ y.lt x = true

theorem HasRank.ordered {x y : Double} {r s : Nat} (hx : x.HasRank r) (hy : y.HasRank s) :
    x.Ordered y := by
  simp only [Ordered, hx.lt_eq hy, hx.eq_eq hy, hy.lt_eq hx, decide_eq_true_eq]
  omega

end Binary

namespace Central

variable {updates : List (Params Single)} {cell : Nat → Nat → Double} {i j : Nat}
  {p q : Params Single}

theorem Cells.distance_eq (h : Cells updates cell) (hp : updates[i]? = some p)
    (hq : updates[j]? = some q) (hij : i ≠ j) : p.distance q = .ok (cell i j) := by
  obtain ⟨p', q', hp', hq', hd⟩ := h.apart i j (List.getElem?_eq_some_iff.mp hp).1
    (List.getElem?_eq_some_iff.mp hq).1 hij
  obtain rfl : p = p' := Option.some.inj (hp.symm.trans hp')
  obtain rfl : q = q' := Option.some.inj (hq.symm.trans hq')
  exact hd

theorem comparable_of_finite (hfinite : ∀ u ∈ updates, u.isFinite = true) :
    Comparable updates := by
  rintro i j d - ⟨p, q, hp, hq, hd⟩
  obtain ⟨r, hr, -⟩ := Params.distance_hasRank (hfinite p (List.mem_of_getElem? hp))
    (hfinite q (List.mem_of_getElem? hq)) hd
  exact hr.isNaN

section Finite

variable (h : Cells updates cell) (hfinite : ∀ u ∈ updates, u.isFinite = true)

include h hfinite

theorem Cells.finite_cell (hp : updates[i]? = some p) (hq : updates[j]? = some q) :
    ∃ r, (cell i j).HasRank r ∧ r ≤ double.power 210 ∧ (r = 0 ↔ p.agrees q = true) := by
  have hpf := hfinite p (List.mem_of_getElem? hp)
  have hqf := hfinite q (List.mem_of_getElem? hq)
  by_cases hij : i = j
  · subst hij
    obtain rfl : p = q := Option.some.inj (hp.symm.trans hq)
    rw [h.diagonal]
    exact ⟨0, hasRank_zero, Nat.zero_le _, iff_of_true rfl (Params.agrees_self hpf)⟩
  · have hd := h.distance_eq hp hq hij
    obtain ⟨r, hr, hle⟩ := Params.distance_hasRank hpf hqf hd
    refine ⟨r, hr, hle, ?_⟩
    rw [← Params.distance_vanishes_iff hpf hqf hd]
    exact ⟨fun hz => hz ▸ hr, fun hz => hr.unique hz⟩

theorem Cells.finite_row (hi : i < updates.length) :
    ∀ d ∈ (List.range updates.length).map (cell i), ∃ r, d.HasRank r ∧ r ≤ double.power 210 := by
  intro d hd
  obtain ⟨j, hj, rfl⟩ := List.mem_map.mp hd
  obtain ⟨r, hr, hle, -⟩ := h.finite_cell hfinite (List.getElem?_eq_getElem hi)
    (List.getElem?_eq_getElem (List.mem_range.mp hj))
  exact ⟨r, hr, hle⟩

theorem Cells.finite_scores (neighbours : Nat) :
    ∀ s ∈ (List.range updates.length).map (cellScore cell updates.length neighbours),
      ∃ r, s.HasRank r ∧ r ≤ double.power 264 := by
  intro s hs
  obtain ⟨i, hi, rfl⟩ := List.mem_map.mp hs
  -- At the bound a term no longer moves the sum, so their number does not matter.
  apply sum_le_of_stall (plus_power_stall (b := 210) (by decide) (by decide))
  intro d hd
  exact h.finite_row hfinite (List.mem_range.mp hi) d
    (mem_insertionSort.mp (List.mem_of_mem_take hd))

end Finite

/-- On finite updates of one layout the order of a selection is well defined: every distance is a
finite number that is not below zero, and it is zero exactly between updates that agree in every
entry. However many neighbours count, there is a finite score for each client. So both sorts, of the
rows of the table and of the scores, only ever compare numbers, and with enough clients for the rule
the selection succeeds. -/
theorem selection_well_ordered (updates : List (Params Single))
    (hlayout : ∀ p ∈ updates, ∀ q ∈ updates, p.layout = q.layout)
    (hfinite : ∀ u ∈ updates, u.isFinite = true) :
    ∃ table, distances updates = .ok table ∧
      (∀ (i j : Nat) (p q : Params Single), updates[i]? = some p → updates[j]? = some q →
        ∃ d, table.entry? i j = some d ∧ (i ≠ j → p.distance q = .ok d) ∧ d.isFinite = true ∧
          zero.le d = true ∧ (d.eq zero = true ↔ p.agrees q = true)) ∧
      (∀ row ∈ table.rows, ∀ x ∈ row, ∀ y ∈ row, x.Ordered y) ∧
      (∀ neighbours, ∃ scores, neighbourScores .standard table neighbours = .ok scores ∧
        scores.length = updates.length ∧ (∀ s ∈ scores, s.isFinite = true) ∧
        ∀ s ∈ scores, ∀ t ∈ scores, s.Ordered t) ∧
      ∀ (r : Central) (neighbours : Nat),
        neighbourCount? updates.length (r.faulty updates.length) = some neighbours →
          ∃ selected scores, (r.select updates).result = .ok (selected, scores) ∧
            neighbourScores .standard table neighbours = .ok scores := by
  obtain ⟨table, ht⟩ := distances_exist hlayout
  obtain ⟨cell, hcells, hrows⟩ := rows_of_distances ht
  have hc := comparable_of_finite hfinite
  refine ⟨table, ht, ?_, ?_, ?_, ?_⟩
  · intro i j p q hp hq
    have hi := (List.getElem?_eq_some_iff.mp hp).1
    have hj := (List.getElem?_eq_some_iff.mp hq).1
    obtain ⟨r, hr, hle, hzero⟩ := hcells.finite_cell hfinite hp hq
    refine ⟨cell i j, entry?_eq hrows hi hj, fun hij => hcells.distance_eq hp hq hij,
      hr.isFinite_of_le hle (by decide), ?_, ?_⟩
    · rw [hasRank_zero.le_eq hr]
      exact decide_eq_true (Nat.zero_le r)
    · rw [hr.eq_eq hasRank_zero, decide_eq_true_eq]
      exact hzero
  · intro row hrow x hx y hy
    rw [hrows] at hrow
    obtain ⟨i, hi, rfl⟩ := List.mem_map.mp hrow
    obtain ⟨r, hr, -⟩ := hcells.finite_row hfinite (List.mem_range.mp hi) x hx
    obtain ⟨s, hs, -⟩ := hcells.finite_row hfinite (List.mem_range.mp hi) y hy
    exact hr.ordered hs
  · intro neighbours
    have hfine := hcells.finite_scores hfinite neighbours
    refine ⟨_, hcells.neighbourScores_eq (.inr hc) hrows neighbours, by simp, ?_, ?_⟩
    · intro s hs
      obtain ⟨r, hr, hle⟩ := hfine s hs
      exact hr.isFinite_of_le hle (by decide)
    · intro s hs t ht
      obtain ⟨r, hr, -⟩ := hfine s hs
      obtain ⟨r', hr', -⟩ := hfine t ht
      exact hr.ordered hr'
  · intro r neighbours hn
    have hscores := hcells.neighbourScores_eq (.inr hc) hrows neighbours
    exact ⟨_, _, selectBy_ok_iff.mpr ⟨neighbours, table, _, hn, ht, hscores,
      hcells.order_eq (.inr hc) neighbours, rfl⟩, hscores⟩

def extremes : List (Params Single) :=
  [[atRank false (single.top - 1), atRank false (single.top - 1)],
    [atRank true (single.top - 1), atRank true (single.top - 1)],
    [atRank false 1, zero], [zero, negZero], [negZero, zero]].map .vector

theorem selection_well_ordered_extremes :
    ∃ table, distances extremes = .ok table ∧
      (∃ d, table.entry? 0 1 = some d ∧ d.isFinite = true) ∧
      (∃ d, table.entry? 2 3 = some d ∧ d.eq zero = false) ∧
      ∃ d, table.entry? 3 4 = some d ∧ d.eq zero = true := by
  obtain ⟨table, ht, hentry, -⟩ := selection_well_ordered extremes (by decide) (by decide)
  obtain ⟨far, hfar, -, hfinite, -⟩ := hentry 0 1 _ _ rfl rfl
  obtain ⟨near, hnear, -, -, -, hnonzero⟩ := hentry 2 3 _ _ rfl rfl
  obtain ⟨same, hsame, -, -, -, hzero⟩ := hentry 3 4 _ _ rfl rfl
  refine ⟨table, ht, ⟨far, hfar, hfinite⟩, ⟨near, hnear, ?_⟩, ⟨same, hsame, ?_⟩⟩
  · apply Bool.eq_false_iff.mpr
    intro h
    exact absurd (hnonzero.mp h) (by decide)
  · exact hzero.mpr (by decide)

end Central

end Federation
