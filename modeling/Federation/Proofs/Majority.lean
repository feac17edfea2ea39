import Federation.Proofs.Selection

/-!
# The honest majority

Honest clients stand close to each other, and every other client stands farther from each of them
than an honest score can reach. The others are too few to fill a row: one of the entries that such a
client is scored by is a distance to an honest client, however close the others stand to each other.
So every honest score is below every other one, and the cut falls among the honest clients.
-/

set_option autoImplicit false

namespace Federation.Central

open Binary FloatFormat

/-- The number of faulty clients leaves a neighbour to each client and a majority of honest ones. -/
def Tolerates (faulty clients : Nat) : Prop := faulty + 3 ≤ clients ∧ 2 * faulty + 2 ≤ clients

theorem tolerates_default {clients : Nat} (h : 4 ≤ clients) :
    Tolerates (defaultFaulty clients) clients := by
  unfold Tolerates defaultFaulty
  omega

/-- The honest clients of a round are at most `near` apart, and farther than `far` from all
others. Nothing is said of the distances between the others. -/
structure Separated (updates : List (Params Single)) (honest : Finset Nat) (near far : Double) :
    Prop where
  lt_length : ∀ i ∈ honest, i < updates.length
  comparable : Comparable updates
  inside : ∀ i ∈ honest, ∀ j ∈ honest, i ≠ j → ∀ d, Apart updates i j d → d.le near = true
  outside : ∀ i ∈ honest, ∀ j, j ∉ honest → ∀ d, Apart updates i j d → far.lt d = true

variable {updates : List (Params Single)} {honest : Finset Nat} {near far : Double}
  {cell : Nat → Nat → Double} {i j k m : Nat}

theorem separated_iff :
    Separated updates honest near far ↔
      (∀ i ∈ honest, i < updates.length) ∧ Comparable updates ∧
      ∀ i ∈ honest, ∀ j < updates.length, i ≠ j →
        (gap? updates i j).all (fun d => if j ∈ honest then d.le near else far.lt d) = true := by
  simp only [Option.all_eq_true]
  constructor
  · intro h
    refine ⟨h.lt_length, h.comparable, fun i hi j _ hij d hd => ?_⟩
    split
    · exact h.inside i hi j ‹_› hij d (apart_iff.mpr hd)
    · exact h.outside i hi j ‹_› d (apart_iff.mpr hd)
  · rintro ⟨hl, hc, h⟩
    refine ⟨hl, hc, ?_, ?_⟩
    · intro i hi j hj hij d ha
      have hd := h i hi j (hl j hj) hij d (apart_iff.mp ha)
      rwa [if_pos hj] at hd
    · intro i hi j hj d ha
      have hij : i ≠ j := fun he => hj (he ▸ hi)
      have hd := h i hi j ha.lt_length.2 hij d (apart_iff.mp ha)
      rwa [if_neg hj] at hd

instance : Decidable (Separated updates honest near far) := decidable_of_iff _ separated_iff.symm

section Rows

variable (h : Separated updates honest near far) (hcells : Cells updates cell)

include h hcells

theorem Separated.near_hasRank (hc : 2 ≤ honest.card) : near.HasRank near.rank := by
  obtain ⟨i, hi, j, hj, hij⟩ := Finset.one_lt_card.mp hc
  have ha := hcells.apart i j (h.lt_length i hi) (h.lt_length j hj) hij
  have hr := hcells.hasRank h.comparable (h.lt_length i hi) (h.lt_length j hj)
  obtain ⟨s, hs, -⟩ := hr.of_le (h.inside i hi j hj hij _ ha)
  rwa [hs.rank_eq]

theorem Separated.inside_rank (hnear : near.HasRank near.rank) (hi : i ∈ honest)
    (hj : j ∈ honest) : (cell i j).rank ≤ near.rank := by
  have hn := h.lt_length
  have hr := hcells.hasRank h.comparable (hn i hi) (hn j hj)
  by_cases hij : i = j
  · subst hij
    rw [hcells.diagonal, hasRank_zero.rank_eq]
    exact Nat.zero_le _
  · have hle := h.inside i hi j hj hij _ (hcells.apart i j (hn i hi) (hn j hj) hij)
    rw [hr.le_eq hnear] at hle
    exact of_decide_eq_true hle

theorem Separated.outside_rank (hm : far.HasRank m) (hj : j < updates.length) (hjo : j ∉ honest)
    (hi : i ∈ honest) : m < (cell j i).rank := by
  have hij : i ≠ j := fun he => hjo (he ▸ hi)
  have hr := hcells.hasRank h.comparable hj (h.lt_length i hi)
  have ha := hcells.apart j i hj (h.lt_length i hi) hij.symm
  have hlt := h.outside i hi j hjo _ ha.comm
  rw [hm.lt_eq hr] at hlt
  exact of_decide_eq_true hlt

theorem Separated.honest_score (hk : k + 1 < Count.bound) (hnear : near.HasRank near.rank)
    (hc : k + 1 ≤ honest.card) (hi : i ∈ honest) :
    (cellScore cell updates.length k i).rank ≤ double.tally 0 (List.replicate k near.rank) := by
  have hn := h.lt_length i hi
  refine score_le_of_near hk (hcells.row_hasRank h.comparable hn) ?_ ?_
  · rw [List.countP_map]
    have hself : ({i} : Finset Nat).card ≤ (List.range updates.length).countP
        ((fun d : Double => decide (d.rank ≤ 0)) ∘ cell i) := by
      apply card_le_countP_range
      intro j hj
      rw [Finset.mem_singleton] at hj
      subst hj
      exact ⟨hn, by simp [hcells.diagonal, hasRank_zero.rank_eq]⟩
    simpa using hself
  · rw [List.countP_map]
    refine le_trans hc (card_le_countP_range fun j hj => ⟨h.lt_length j hj, ?_⟩)
    exact decide_eq_true (h.inside_rank hcells hnear hi hj)

/-- Any other client scores more than the bound that keeps it away: of the entries in its score the
others account for fewer than there are. -/
theorem Separated.other_score (hk : k + 1 < Count.bound) (hm : far.HasRank m)
    (hl : k + 1 ≤ updates.length) (hc : updates.length ≤ honest.card + k)
    (hj : j < updates.length) (hjo : j ∉ honest) :
    m < (cellScore cell updates.length k j).rank := by
  apply lt_score_of_far hk (hcells.row_hasRank h.comparable hj) (by simpa using hl)
  rw [List.countP_map]
  have hfew : (List.range updates.length).countP ((fun d : Double => decide (d.rank ≤ m)) ∘ cell j)
      + honest.card ≤ updates.length := by
    refine countP_range_add_card_le fun i hi => ⟨h.lt_length i hi, ?_⟩
    have hlt := h.outside_rank hcells hm hj hjo hi
    exact decide_eq_false (Nat.not_le.mpr hlt)
  omega

theorem Separated.lowest_honest {count : Nat} (hk : k + 1 < Count.bound)
    (hnear : near.HasRank near.rank) (hm : far.HasRank m)
    (hsum : double.tally 0 (List.replicate k near.rank) ≤ m) (hkc : k + 1 ≤ honest.card)
    (hkl : k + 1 ≤ updates.length) (hc : updates.length ≤ honest.card + k)
    (hcount : count ≤ honest.card)
    (hi : i ∈ lowest count ((List.range updates.length).map (cellScore cell updates.length k))) :
    i ∈ honest := by
  have hlow : count ≤ (List.range updates.length).countP fun i =>
      decide ((cellScore cell updates.length k i).rank ≤ m) := by
    refine le_trans hcount (card_le_countP_range fun j hj => ⟨h.lt_length j hj, ?_⟩)
    exact decide_eq_true (le_trans (h.honest_score hcells hk hnear hkc hj) hsum)
  obtain ⟨hlt, hle⟩ := hcells.score_le_of_mem_lowest h.comparable hlow hi
  by_contra hio
  have hgt := h.other_score hcells hk hm hkl hc hlt hio
  omega

end Rows

/-- With all but the assumed number of clients honest and separated from the others, a selection
succeeds and takes honest clients only, as many as there must be. The separation asks that `far` is
not below the sum of as many copies of `near` as a client has neighbours. Clients are counted in a
word. -/
theorem select_honest (r : Central) (updates : List (Params Single)) (honest : Finset Nat)
    (near far : Double) (hword : updates.length < Count.bound)
    (hlayout : ∀ p ∈ updates, ∀ q ∈ updates, p.layout = q.layout)
    (hf : Tolerates (r.faulty updates.length) updates.length)
    (hcard : updates.length - r.faulty updates.length ≤ honest.card)
    (hsep : Separated updates honest near far)
    (hsum : (Scalar.sum (List.replicate (updates.length - r.faulty updates.length - 2) near)).le far
      = true) :
    (∀ clients, 4 ≤ clients → Tolerates (defaultFaulty clients) clients) ∧
      ∃ selected scores, (r.select updates).result = .ok (selected, scores) ∧
        selected.length = updates.length - r.faulty updates.length ∧
        ∀ i ∈ selected, i ∈ honest := by
  refine ⟨fun clients => tolerates_default, ?_⟩
  obtain ⟨hleft, hmajority⟩ := hf
  obtain ⟨selected, scores, hs⟩ :=
    select_exists r (.inr hsep.comparable) hlayout (by omega) hleft
  obtain ⟨cell, hcells, rfl, hmem, hlen⟩ := select_cells (.inr hsep.comparable) hs
  have hnear := hsep.near_hasRank hcells (by omega)
  have hcopies : (Scalar.sum (List.replicate (updates.length - r.faulty updates.length - 2)
      near)).HasRank (double.tally 0
        (List.replicate (updates.length - r.faulty updates.length - 2) near.rank)) := by
    rw [← List.map_replicate]
    refine hasRank_sum (List.forall₂_map_right_iff.mpr (List.forall₂_same.mpr fun x hx => ?_))
    rwa [List.eq_of_mem_replicate hx]
  obtain ⟨m, hm, hle⟩ := hcopies.of_le hsum
  refine ⟨selected, _, hs, hlen, fun i hi => ?_⟩
  exact hsep.lowest_honest hcells (by omega) hnear hm hle (by omega) (by omega) (by omega)
    hcard ((hmem i).mp hi)

def colluding : List (Params Single) :=
  [3, 90, 4, 5, 90, 4].map fun n => .vector [.ofNat n]

theorem select_honest_colluding :
    (∀ clients, 4 ≤ clients → Tolerates (defaultFaulty clients) clients) ∧
      ∃ selected scores, ((⟨.ofNat 1, .ofNat 0, none⟩ : Central).select colluding).result
        = .ok (selected, scores) ∧ selected.length = 4 ∧
        ∀ i ∈ selected, i ∈ ({0, 2, 3, 5} : Finset Nat) :=
  select_honest ⟨.ofNat 1, .ofNat 0, none⟩ colluding {0, 2, 3, 5} (.ofNat 2) (.ofNat 80)
    (by decide +kernel) (by decide +kernel) (by unfold Tolerates; decide +kernel)
    (by decide +kernel) (by decide +kernel) (by decide +kernel)

end Federation.Central
