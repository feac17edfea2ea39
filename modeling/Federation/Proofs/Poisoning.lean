import Federation.Proofs.Float.Bounds
import Federation.Proofs.Selection

/-!
# Poisoned updates

An update with an entry that is not finite is at no finite distance from any other, so its score is
not finite. An infinite score is cut off as long as all scores are numbers. Where some distance is
invalid, scores compare with nothing and keep their places: then it is the index of the poisoned
client that decides, and one that comes early enough enters the average.
-/

set_option autoImplicit false

namespace Federation.Central

open Binary FloatFormat

/-- The client is there and sent an entry that is invalid or infinite. -/
def Poisoned (updates : List (Params Single)) (i : Nat) : Prop :=
  ∃ u, updates[i]? = some u ∧ u.isFinite = false

theorem countP_isFinite_add (updates : List (Params Single)) :
    updates.countP Params.isFinite + updates.countP (fun u => !u.isFinite) = updates.length := by
  rw [List.length_eq_countP_add_countP Params.isFinite]
  congr 1
  apply List.countP_congr
  intro u _
  cases u.isFinite <;> simp

variable {updates : List (Params Single)} {cell : Nat → Nat → Double} {i j k p : Nat} {d : Double}

theorem Poisoned.lt_length (hp : Poisoned updates p) : p < updates.length := by
  obtain ⟨u, hu, -⟩ := hp
  exact (List.getElem?_eq_some_iff.mp hu).1

theorem countP_isFinite_le {test : Nat → Bool}
    (h : ∀ i < updates.length, ¬Poisoned updates i → test i = true) :
    updates.countP Params.isFinite ≤ (List.range updates.length).countP test := by
  rw [← countP_range_getElem? Params.isFinite updates]
  apply List.countP_mono_left
  intro i hi hu
  obtain ⟨u, hu, hfin⟩ := (Option.any_eq_true _ _).mp hu
  apply h i (List.mem_range.mp hi)
  rintro ⟨v, hv, hf⟩
  rw [hu] at hv
  cases hv
  rw [hfin] at hf
  cases hf

theorem Apart.not_poisoned (h : Apart updates i j d) (hd : d.isFinite = true) :
    ¬Poisoned updates i := by
  rintro ⟨u, hu, hf⟩
  obtain ⟨p, q, hp, -, hpq⟩ := h
  rw [hp] at hu
  cases hu
  rw [(Params.isFinite_of_distance hpq hd).1] at hf
  cases hf

theorem Apart.hasRank (h : Apart updates i j d) (hi : ¬Poisoned updates i)
    (hj : ¬Poisoned updates j) : ∃ r, d.HasRank r ∧ r ≤ double.power 210 := by
  obtain ⟨p, q, hp, hq, hpq⟩ := h
  have hpf : p.isFinite = true := by
    by_contra hf
    exact hi ⟨p, hp, Bool.eq_false_iff.mpr hf⟩
  have hqf : q.isFinite = true := by
    by_contra hf
    exact hj ⟨q, hq, Bool.eq_false_iff.mpr hf⟩
  exact Params.distance_hasRank hpf hqf hpq

section Rows

variable (h : Cells updates cell)

include h

theorem Cells.poisoned_cell (hp : Poisoned updates p) (hi : i < updates.length) (hne : i ≠ p) :
    (cell p i).isFinite = false := by
  have ha := h.apart p i hp.lt_length hi hne.symm
  exact Bool.eq_false_iff.mpr fun hf => ha.not_poisoned hf hp

/-- The only finite entry of a poisoned row is the zero, and a score sums more entries than one, in
whatever order the row is. -/
theorem Cells.poisoned_sum (hp : Poisoned updates p) (hpos : 1 ≤ k)
    (hl : k + 1 ≤ updates.length) {sorted : List Double}
    (hperm : sorted.Perm ((List.range updates.length).map (cell p))) :
    (Scalar.sum (sorted.take (k + 1))).isFinite = false := by
  apply Bool.eq_false_iff.mpr
  intro hf
  have hall := isFinite_of_sum (fun d hd => h.row_unsigned hp.lt_length d
    (hperm.mem_iff.mp (List.mem_of_mem_take hd))) hf
  have hcount := (List.take_sublist (k + 1) sorted).countP_le (p := Binary.isFinite)
  rw [List.countP_eq_length.mpr hall, hperm.countP_eq, List.countP_map, List.length_take,
    hperm.length_eq, List.length_map, List.length_range] at hcount
  have hfew : (List.range updates.length).countP (Binary.isFinite ∘ cell p)
      + ((Finset.range updates.length).erase p).card ≤ updates.length := by
    apply countP_range_add_card_le
    intro i hi
    obtain ⟨hne, hi⟩ := Finset.mem_erase.mp hi
    exact ⟨Finset.mem_range.mp hi, h.poisoned_cell hp (Finset.mem_range.mp hi) hne⟩
  rw [Finset.card_erase_of_mem (Finset.mem_range.mpr hp.lt_length), Finset.card_range] at hfew
  omega

theorem Cells.poisoned_score (hp : Poisoned updates p) (hk : k + 1 < Count.bound) (hpos : 1 ≤ k)
    (hl : k + 1 ≤ updates.length) : (cellScore cell updates.length k p).isFinite = false := by
  rw [cellScore, nearSum_eq hk]
  exact h.poisoned_sum hp hpos hl (insertionSort_perm _ _)

/-- Without invalid distances an update that is not poisoned has a finite score, below a bound that
does not depend on the round: enough of the others are not poisoned either. -/
theorem Cells.sound_score (hi : i < updates.length) (hs : ¬Poisoned updates i)
    (hc : Comparable updates) (hk : k + 1 < Count.bound)
    (hkc : k + 1 ≤ updates.countP Params.isFinite) :
    (cellScore cell updates.length k i).rank ≤ double.power 264 := by
  have hrow := h.row_hasRank hc hi
  have hnear : k + 1 ≤ ((List.range updates.length).map (cell i)).countP
      fun d => decide (d.rank ≤ double.power 210) := by
    rw [List.countP_map]
    refine le_trans hkc (countP_isFinite_le fun j hj hjs => ?_)
    by_cases hij : i = j
    · subst hij
      simp [h.diagonal, hasRank_zero.rank_eq]
    · obtain ⟨r, hr, hle⟩ := (h.apart i j hi hj hij).hasRank hs hjs
      exact decide_eq_true (by rwa [hr.rank_eq])
  have hfront := key_le_of_mem_take (lt_eq_rank hrow) hnear
  rw [cellScore, nearSum_eq hk]
  have hstall : double.plus (double.power 264) (double.power 210) ≤ double.power 264 :=
    plus_power_stall (by decide) (by decide)
  obtain ⟨m, hm, hle⟩ := sum_le_of_stall hstall fun d hd =>
    ⟨d.rank, hrow d (mem_insertionSort.mp (List.mem_of_mem_take hd)), hfront d hd⟩
  rwa [hm.rank_eq]

theorem Cells.not_mem_lowest {count : Nat} (hp : Poisoned updates p) (hc : Comparable updates)
    (hk : k + 1 < Count.bound) (hpos : 1 ≤ k) (hl : k + 1 ≤ updates.length)
    (hkc : k + 1 ≤ updates.countP Params.isFinite)
    (hcount : count ≤ updates.countP Params.isFinite) :
    p ∉ lowest count ((List.range updates.length).map (cellScore cell updates.length k)) := by
  intro hmem
  have htop : double.power 264 < double.top := power_lt_top (by decide)
  have hlow : count ≤ (List.range updates.length).countP fun i =>
      decide ((cellScore cell updates.length k i).rank ≤ double.power 264) := by
    refine le_trans hcount (countP_isFinite_le fun i hi hs => ?_)
    exact decide_eq_true (h.sound_score hi hs hc hk hkc)
  obtain ⟨hlt, hle⟩ := h.score_le_of_mem_lowest hc hlow hmem
  have hf := h.poisoned_score hp hk hpos hl
  rw [(h.cellScore_hasRank hc hlt k).isFinite, decide_eq_false_iff_not] at hf
  omega

theorem Cells.poisoned_mem_lowest_iff (hp : Poisoned updates p) (hk : k + 1 < Count.bound)
    (hpos : 1 ≤ k) (hl : k + 1 ≤ updates.length) (count : Nat) :
    p ∈ lowest count ((List.range updates.length).map (cellScore cell updates.length k)) ↔
      p + overtakers ((List.range updates.length).map (cellScore cell updates.length k)) p
        < count := by
  have hget : ((List.range updates.length).map (cellScore cell updates.length k))[p]?
      = some (cellScore cell updates.length k p) := by
    rw [List.getElem?_map, List.getElem?_range hp.lt_length]
    rfl
  have hu : (cellScore cell updates.length k p).Unsigned :=
    score_unsigned (h.row_unsigned hp.lt_length)
  exact mem_lowest_iff hget (hu.not_lt (h.poisoned_score hp hk hpos hl)) count

end Rows

theorem poisoned_score {r : Central} {selected : List Nat} {scores : List Double}
    (hword : updates.length < Count.bound)
    (hf : 2 * r.faulty updates.length + 3 ≤ updates.length) (hpos : 1 ≤ r.faulty updates.length)
    (hp : Poisoned updates p) (h : (r.select updates).result = .ok (selected, scores)) :
    ∃ s, scores[p]? = some s ∧ s.isFinite = false := by
  obtain ⟨neighbours, table, -, hn, ht, hs, -⟩ := selectBy_ok_iff.mp h
  obtain ⟨-, -, rfl⟩ := neighbourCount?_eq_some_iff.mp hn
  obtain ⟨cell, hcells, hrows⟩ := rows_of_distances ht
  have hrow : table.rows[p]? = some ((List.range updates.length).map (cell p)) := by
    rw [hrows, List.getElem?_map, List.getElem?_range hp.lt_length]
    rfl
  obtain ⟨s, hget, hscore⟩ := Pairwise.getElem?_forall₂ (mapM_ok_iff.mp hs) hrow
  obtain ⟨sorted, hsorted, he⟩ := except_bind_ok_iff.mp hscore
  have hsum : Scalar.sum (sorted.take (Count.next (updates.length - r.faulty updates.length - 2)))
      = s := Except.ok.inj he
  rw [Count.next_of_lt (by omega)] at hsum
  have hperm := Sorting.standard_permutes.sorted_perm hsorted
  exact ⟨s, hget, hsum ▸ hcells.poisoned_sum hp (by omega) (by omega) hperm⟩

/-- With no more poisoned clients than are assumed to be faulty, no poisoned client has a finite
score. Where the sorts do not give up, a poisoned client is kept out exactly if its index, with the
later clients that get in front of it, reaches the number of clients to select. Nobody gets in front
of an invalid score. While all distances are numbers, every poisoned client is kept out. Clients are
counted in a word. -/
theorem round_keeps_out_poisoned (r : Central) (state : State Single)
    (updates : List (Params Single)) (outcome : Outcome)
    (hword : updates.length < Count.bound) (hpos : 1 ≤ r.faulty updates.length)
    (hf : 2 * r.faulty updates.length + 3 ≤ updates.length)
    (hfew : updates.countP (fun u => !u.isFinite) ≤ r.faulty updates.length)
    (hround : (r.round state updates).result = .ok outcome) :
    ∃ scores, outcome.scores = some scores ∧
      (∀ p, Poisoned updates p → ∃ s, scores[p]? = some s ∧ s.isFinite = false) ∧
      (Settled updates → ∀ p, Poisoned updates p → (p ∉ outcome.selected ↔
        updates.length - r.faulty updates.length ≤ p + overtakers scores p)) ∧
      (∀ p, scores[p]? = some nan → overtakers scores p = 0) ∧
      (Comparable updates → ∀ p, Poisoned updates p → p ∉ outcome.selected) := by
  obtain ⟨selected, scores, -, -, -, hs, -, -, rfl⟩ := round_ok_iff.mp hround
  have hcount := countP_isFinite_add updates
  refine ⟨scores, rfl, fun p hp => poisoned_score hword hf hpos hp hs, ?_, ?_, ?_⟩
  · intro hset p hp
    obtain ⟨cell, hcells, rfl, hmem, -⟩ := select_cells hset hs
    rw [hmem, hcells.poisoned_mem_lowest_iff hp (by omega) (by omega) (by omega), Nat.not_lt]
  · intro p hp
    exact overtakers_of_nan hp
  · intro hc p hp
    obtain ⟨cell, hcells, rfl, hmem, -⟩ := select_cells (.inr hc) hs
    rw [hmem]
    exact hcells.not_mem_lowest hp hc (by omega) (by omega) (by omega) (by omega) (by omega)

def firstSends (entry : Single) : List (Params Single) :=
  [entry, .ofRatio false 3 2, .ofNat 2, .ofNat 3, .ofRatio false 9 2].map fun x => .vector [x]

def plainRule : Central := ⟨.ofNat 1, .ofNat 0, none⟩

def zeroState : State Single := ⟨.vector [.zero], .vector [.zero]⟩

theorem round_keeps_out_infinity :
    ∃ outcome scores,
      (plainRule.round zeroState (firstSends (.infinity false))).result = .ok outcome ∧
        outcome.scores = some scores ∧ 0 ∉ outcome.selected ∧ 4 ≤ overtakers scores 0 := by
  have hok : (plainRule.round zeroState (firstSends (.infinity false))).result.toOption.isSome
      = true := by decide +kernel
  have hp : Poisoned (firstSends (.infinity false)) 0 := ⟨_, rfl, by decide +kernel⟩
  have hcut : (firstSends (.infinity false)).length
      - plainRule.faulty (firstSends (.infinity false)).length = 4 := by decide +kernel
  cases hr : (plainRule.round zeroState (firstSends (.infinity false))).result with
  | error fault =>
    rw [hr] at hok
    cases hok
  | ok outcome =>
    obtain ⟨scores, hscores, -, hplace, -, hkeep⟩ := round_keeps_out_poisoned plainRule zeroState
      (firstSends (.infinity false)) outcome (by decide +kernel) (by decide +kernel)
      (by decide +kernel) (by decide +kernel) hr
    have hout := hkeep (by decide +kernel) 0 hp
    have hfront := (hplace (.inl (by decide)) 0 hp).mp hout
    rw [hcut, Nat.zero_add] at hfront
    exact ⟨outcome, scores, rfl, hscores, hout, hfront⟩

/-- One invalid entry makes all five scores invalid, so the order of the clients decides: the first
four are selected, the poisoned one among them. -/
theorem round_selects_invalid :
    plainRule.faulty (firstSends .nan).length = 1 ∧ (firstSends .nan).length = 2 * 1 + 3 ∧
      Poisoned (firstSends .nan) 0 ∧ (firstSends .nan).countP (fun u => !u.isFinite) = 1 ∧
      (plainRule.round zeroState (firstSends .nan)).result.toOption.map Outcome.selected
        = some [0, 1, 2, 3] :=
  ⟨by decide +kernel, by decide +kernel, ⟨_, rfl, by decide +kernel⟩, by decide +kernel,
    by decide +kernel⟩

end Federation.Central
