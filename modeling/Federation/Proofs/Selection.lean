import Federation.Proofs.Distances
import Federation.Proofs.Pairs
import Federation.Proofs.Rounds

/-!
# Scores and selections

A row of the table of distances has one entry for each client, its own being zero. What is known of
the entries of a row by count bounds its score, and what is known of the scores by count decides
which clients are among the lowest.
-/

set_option autoImplicit false

namespace Federation

open Binary FloatFormat

namespace Central

/-- Two clients of a round are this far apart. -/
def Apart (updates : List (Params Single)) (i j : Nat) (d : Double) : Prop :=
  ∃ p q, updates[i]? = some p ∧ updates[j]? = some q ∧ p.distance q = .ok d

def gap? (updates : List (Params Single)) (i j : Nat) : Option Double := do
  let p ← updates[i]?
  let q ← updates[j]?
  (p.distance q).toOption

variable {updates : List (Params Single)} {i j : Nat} {d e : Double}

theorem apart_iff : Apart updates i j d ↔ gap? updates i j = some d := by
  simp only [Apart, gap?, Option.bind_eq_bind, Option.bind_eq_some_iff]
  constructor
  · rintro ⟨p, q, hp, hq, hd⟩
    exact ⟨p, hp, q, hq, by rw [hd]; rfl⟩
  · rintro ⟨p, hp, q, hq, hd⟩
    cases hr : p.distance q with
    | error fault => rw [hr] at hd; cases hd
    | ok c => rw [hr] at hd; cases hd; exact ⟨p, q, hp, hq, hr⟩

theorem Apart.lt_length (h : Apart updates i j d) : i < updates.length ∧ j < updates.length := by
  obtain ⟨p, q, hp, hq, -⟩ := h
  exact ⟨(List.getElem?_eq_some_iff.mp hp).1, (List.getElem?_eq_some_iff.mp hq).1⟩

theorem Apart.comm (h : Apart updates i j d) : Apart updates j i d := by
  obtain ⟨p, q, hp, hq, hd⟩ := h
  exact ⟨q, p, hq, hp, Params.distance_comm hd⟩

theorem Apart.unsigned (h : Apart updates i j d) : d.Unsigned := by
  obtain ⟨p, q, -, -, hd⟩ := h
  exact Params.distance_unsigned hd

/-- No two clients are at an invalid distance. -/
def Comparable (updates : List (Params Single)) : Prop :=
  ∀ i j d, i ≠ j → Apart updates i j d → d.isNaN = false

theorem comparable_iff :
    Comparable updates ↔ ∀ i < updates.length, ∀ j < updates.length, i ≠ j →
      (gap? updates i j).all (fun d => !d.isNaN) = true := by
  simp only [Option.all_eq_true, Bool.not_eq_true']
  constructor
  · intro h i _ j _ hij d hd
    exact h i j d hij (apart_iff.mpr hd)
  · intro h i j d hij ha
    obtain ⟨hi, hj⟩ := ha.lt_length
    exact h i hi j hj hij d (apart_iff.mp ha)

instance : Decidable (Comparable updates) := decidable_of_iff _ comparable_iff.symm

/-- The sorts of a round do not give up: it is short, or no two clients are at an invalid
distance. -/
def Settled (updates : List (Params Single)) : Prop := updates.length ≤ 20 ∨ Comparable updates

theorem distances_exist (h : ∀ p ∈ updates, ∀ q ∈ updates, p.layout = q.layout) :
    ∃ table, distances updates = .ok table := by
  have hp : updates.Pairwise fun p q => ∃ d, p.distance q = .ok d :=
    List.pairwise_of_forall_mem_list fun p hp q hq => Params.distance_exists (h p hp q hq)
  obtain ⟨rows, hu⟩ := Pairwise.upper_ok hp
  exact ⟨_, Pairwise.table_ok_iff.mpr ⟨rows, hu, rfl⟩⟩

/-- The cells of the table of distances: nothing between a client and itself, and elsewhere how
far apart the two clients are. -/
structure Cells (updates : List (Params Single)) (cell : Nat → Nat → Double) : Prop where
  diagonal : ∀ i, cell i i = zero
  apart : ∀ i j, i < updates.length → j < updates.length → i ≠ j → Apart updates i j (cell i j)

theorem rows_of_distances {table : Matrix Double} (h : distances updates = .ok table) :
    ∃ cell, Cells updates cell ∧
      table.rows = (List.range updates.length).map fun i =>
        (List.range updates.length).map (cell i) := by
  obtain ⟨cell, hdiagonal, hcomm, hdistance, hrows⟩ := Pairwise.rows_of_table h
  refine ⟨cell, ⟨hdiagonal, ?_⟩, hrows⟩
  intro i j hi hj hne
  have hx := List.getElem?_eq_getElem hi
  have hy := List.getElem?_eq_getElem hj
  rcases Nat.lt_or_gt_of_ne hne with hij | hij
  · exact ⟨_, _, hx, hy, hdistance i j _ _ hij hx hy⟩
  · rw [hcomm]
    exact Apart.comm ⟨_, _, hy, hx, hdistance j i _ _ hij hy hx⟩

section Row

variable {row : List Double} {k t : Nat}

def nearSum (neighbours : Nat) (row : List Double) : Double :=
  Scalar.sum ((insertionSort Binary.lt row).take (Count.next neighbours))

theorem neighbourScore_eq (h : row.length ≤ 20 ∨ ∀ x ∈ row, x.HasRank x.rank) (k : Nat) :
    neighbourScore .standard k row = .ok (nearSum k row) := by
  have hs : Sorting.standard.sorted Binary.lt row = .ok (insertionSort Binary.lt row) :=
    h.elim Sorting.sorted_of_length fun hr => Sorting.sorted_of_key (lt_eq_rank hr)
  rw [neighbourScore, hs]
  rfl

theorem nearSum_eq (hk : k + 1 < Count.bound) (row : List Double) :
    nearSum k row = Scalar.sum ((insertionSort Binary.lt row).take (k + 1)) := by
  rw [nearSum, Count.next_of_lt hk]

theorem score_tally (k : Nat) (h : ∀ x ∈ row, x.HasRank x.rank) :
    (nearSum k row).HasRank
      (double.tally 0 (((insertionSort Binary.lt row).take (Count.next k)).map rank)) := by
  refine hasRank_sum (List.forall₂_map_right_iff.mpr (List.forall₂_same.mpr fun x hx => ?_))
  exact h x (mem_insertionSort.mp (List.mem_of_mem_take hx))

theorem score_hasRank (hk : k + 1 < Count.bound) (h : ∀ x ∈ row, x.HasRank x.rank) :
    (nearSum k row).HasRank
      (double.tally 0 (((insertionSort Binary.lt row).take (k + 1)).map rank)) := by
  rw [← Count.next_of_lt hk]
  exact score_tally k h

/-- A client with a zero and enough entries up to `t` in its row scores at most as many copies of
`t` as it has neighbours. -/
theorem score_le_of_near (hk : k + 1 < Count.bound) (h : ∀ x ∈ row, x.HasRank x.rank)
    (hzero : 1 ≤ row.countP fun x => decide (x.rank ≤ 0))
    (hnear : k + 1 ≤ row.countP fun x => decide (x.rank ≤ t)) :
    (nearSum k row).rank ≤ double.tally 0 (List.replicate k t) := by
  rw [(score_hasRank hk h).rank_eq]
  have hfirst := key_le_of_mem_take (lt_eq_rank h) hzero
  have hall := key_le_of_mem_take (lt_eq_rank h) hnear
  cases hs : insertionSort Binary.lt row with
  | nil => exact double.le_tally _ (Nat.zero_le _)
  | cons x rest =>
    rw [hs] at hfirst hall
    have hx : x.rank = 0 := Nat.le_zero.mp (hfirst x (by simp))
    have hstart : double.tally 0 (((x :: rest).take (k + 1)).map rank)
        = double.tally 0 ((rest.take k).map rank) := by
      rw [List.take_succ_cons, List.map_cons, hx, tally_cons, double.plus_zero (Nat.zero_le _)]
    rw [hstart]
    refine double.tally_le_replicate (Nat.zero_le _) ?_ ?_
    · intro r hr
      obtain ⟨y, hy, rfl⟩ := List.mem_map.mp hr
      exact hall y (by simp [hy])
    · rw [List.length_map]
      exact List.length_take_le _ _

theorem lt_score_of_far (hk : k + 1 < Count.bound) (h : ∀ x ∈ row, x.HasRank x.rank)
    (hl : k + 1 ≤ row.length) (hfar : (row.countP fun x => decide (x.rank ≤ t)) ≤ k) :
    t < (nearSum k row).rank := by
  rw [(score_hasRank hk h).rank_eq]
  have hex : ∃ x ∈ (insertionSort Binary.lt row).take (k + 1), t < x.rank := by
    by_contra hc
    push Not at hc
    have hall : ((insertionSort Binary.lt row).take (k + 1)).countP
        (fun x : Double => decide (x.rank ≤ t)) = k + 1 := by
      rw [List.countP_eq_length.mpr fun x hx => decide_eq_true (hc x hx), List.length_take,
        length_insertionSort]
      exact Nat.min_eq_left hl
    have hsub : ((insertionSort Binary.lt row).take (k + 1)).countP
        (fun x : Double => decide (x.rank ≤ t)) ≤ row.countP fun x => decide (x.rank ≤ t) := by
      rw [← (insertionSort_perm Binary.lt row).countP_eq]
      exact (List.take_sublist (k + 1) _).countP_le
    omega
  obtain ⟨x, hx, ht⟩ := hex
  have hm : x.rank ≤ double.top := (h x (mem_insertionSort.mp (List.mem_of_mem_take hx))).le_top
  exact lt_of_lt_of_le ht (double.mem_le_tally (List.mem_map_of_mem hx) hm)

theorem score_unsigned (h : ∀ x ∈ row, x.Unsigned) : (nearSum k row).Unsigned :=
  unsigned_sum fun x hx => h x (mem_insertionSort.mp (List.mem_of_mem_take hx))

end Row

theorem countP_zipIdx (scores : List Double) (test : Double → Bool) :
    scores.zipIdx.countP (fun x => test x.1) = scores.countP test := by
  conv_rhs => rw [← List.zipIdx_map_fst 0 scores, List.countP_map]
  rfl

theorem goesBy_zipIdx {scores : List Double} (h : ∀ s ∈ scores, s.HasRank s.rank) :
    GoesBy (fun a b : Double × Nat => a.1.lt b.1) (fun a => a.1.rank) scores.zipIdx :=
  fun x hx y hy =>
    lt_eq_rank h x.1 (List.fst_mem_of_mem_zipIdx hx) y.1 (List.fst_mem_of_mem_zipIdx hy)

/-- The first clients in the order of their scores, sorted by insertion. -/
def lowest (count : Nat) (scores : List Double) : List Nat :=
  ((insertionSort (fun a b : Double × Nat => a.1.lt b.1) scores.zipIdx).take count).map Prod.snd

theorem order_eq {scores : List Double}
    (h : scores.length ≤ 20 ∨ ∀ s ∈ scores, s.HasRank s.rank) :
    Central.order .standard scores = .ok ((insertionSort (fun a b : Double × Nat => a.1.lt b.1)
      scores.zipIdx).map Prod.snd) := by
  have hs : Sorting.standard.sorted (fun a b : Double × Nat => a.1.lt b.1) scores.zipIdx
      = .ok (insertionSort (fun a b => a.1.lt b.1) scores.zipIdx) :=
    h.elim (fun hl => Sorting.sorted_of_length (by rwa [List.length_zipIdx]))
      fun hr => Sorting.sorted_of_key (goesBy_zipIdx hr)
  rw [Central.order, hs]
  rfl

theorem length_lowest (count : Nat) (scores : List Double) :
    (lowest count scores).length = min count scores.length := by
  simp [lowest, length_insertionSort]

theorem nodup_sorted (scores : List Double) :
    ((insertionSort (fun a b : Double × Nat => a.1.lt b.1) scores.zipIdx).map Prod.snd).Nodup := by
  have hp := (insertionSort_perm (fun a b : Double × Nat => a.1.lt b.1) scores.zipIdx).map Prod.snd
  rw [List.zipIdx_map_snd] at hp
  exact hp.nodup_iff.mpr List.nodup_range'

theorem nodup_lowest (count : Nat) (scores : List Double) : (lowest count scores).Nodup := by
  unfold lowest
  rw [List.map_take]
  exact (nodup_sorted scores).sublist (List.take_sublist _ _)

theorem rank_le_of_mem_lowest {count t : Nat} {scores : List Double}
    (h : ∀ s ∈ scores, s.HasRank s.rank)
    (hm : count ≤ scores.countP fun s => decide (s.rank ≤ t)) (hi : i ∈ lowest count scores) :
    ∃ s, scores[i]? = some s ∧ s.rank ≤ t := by
  obtain ⟨⟨s, j⟩, hx, rfl⟩ := List.mem_map.mp hi
  have hz := mem_insertionSort.mp (List.mem_of_mem_take hx)
  rw [← countP_zipIdx scores fun s => decide (s.rank ≤ t)] at hm
  exact ⟨s, List.mem_zipIdx_iff_getElem?.mp hz, key_le_of_mem_take (goesBy_zipIdx h) hm _ hx⟩

def cellScore (cell : Nat → Nat → Double) (n k i : Nat) : Double :=
  nearSum k ((List.range n).map (cell i))

theorem score_at {scores : List Double} {cell : Nat → Nat → Double} {n k : Nat} {s : Double}
    (h : scores = (List.range n).map (cellScore cell n k)) (hs : scores[i]? = some s) :
    i < n ∧ s = cellScore cell n k i := by
  rw [h, List.getElem?_map] at hs
  obtain ⟨m, hm, rfl⟩ := Option.map_eq_some_iff.mp hs
  obtain ⟨hlt, rfl⟩ := List.getElem?_eq_some_iff.mp hm
  rw [List.getElem_range]
  exact ⟨by simpa using hlt, rfl⟩

theorem getElem?_scores {scores : List Double} {cell : Nat → Nat → Double} {n k : Nat}
    (h : scores = (List.range n).map (cellScore cell n k)) (hi : i < n) :
    scores[i]? = some (cellScore cell n k i) := by
  simp [h, hi]

section Cells

variable {cell : Nat → Nat → Double} (h : Cells updates cell)

include h

theorem Cells.unsigned (hi : i < updates.length) (hj : j < updates.length) :
    (cell i j).Unsigned := by
  by_cases hij : i = j
  · subst hij
    rw [h.diagonal]
    exact hasRank_zero.unsigned
  · exact (h.apart i j hi hj hij).unsigned

theorem Cells.row_unsigned (hi : i < updates.length) :
    ∀ d ∈ (List.range updates.length).map (cell i), d.Unsigned := by
  intro d hd
  obtain ⟨j, hj, rfl⟩ := List.mem_map.mp hd
  exact h.unsigned hi (List.mem_range.mp hj)

theorem Cells.hasRank (hc : Comparable updates) (hi : i < updates.length)
    (hj : j < updates.length) : (cell i j).HasRank (cell i j).rank := by
  by_cases hij : i = j
  · subst hij
    rw [h.diagonal]
    exact hasRank_zero
  · have ha := h.apart i j hi hj hij
    obtain ⟨r, hr⟩ := ha.unsigned.hasRank (hc i j _ hij ha)
    rwa [hr.rank_eq]

theorem Cells.row_hasRank (hc : Comparable updates) (hi : i < updates.length) :
    ∀ d ∈ (List.range updates.length).map (cell i), d.HasRank d.rank := by
  intro d hd
  obtain ⟨j, hj, rfl⟩ := List.mem_map.mp hd
  exact h.hasRank hc hi (List.mem_range.mp hj)

theorem Cells.cellScore_hasRank (hc : Comparable updates) (hi : i < updates.length) (k : Nat) :
    (cellScore cell updates.length k i).HasRank (cellScore cell updates.length k i).rank := by
  have hr := score_tally k (h.row_hasRank hc hi)
  unfold cellScore
  rwa [hr.rank_eq]

theorem Cells.scores_hasRank (hc : Comparable updates) (k : Nat) :
    ∀ s ∈ (List.range updates.length).map (cellScore cell updates.length k),
      s.HasRank s.rank := by
  intro s hs
  obtain ⟨j, hj, rfl⟩ := List.mem_map.mp hs
  exact h.cellScore_hasRank hc (List.mem_range.mp hj) k

theorem Cells.score_le_of_mem_lowest {count k t : Nat} (hc : Comparable updates)
    (hm : count ≤ (List.range updates.length).countP fun i =>
      decide ((cellScore cell updates.length k i).rank ≤ t))
    (hi : i ∈ lowest count ((List.range updates.length).map (cellScore cell updates.length k))) :
    i < updates.length ∧ (cellScore cell updates.length k i).rank ≤ t := by
  have hlow : count ≤ ((List.range updates.length).map (cellScore cell updates.length k)).countP
      fun s => decide (s.rank ≤ t) := by
    rwa [List.countP_map]
  obtain ⟨s, hs, hle⟩ := rank_le_of_mem_lowest (h.scores_hasRank hc k) hlow hi
  obtain ⟨hlt, rfl⟩ := score_at rfl hs
  exact ⟨hlt, hle⟩

end Cells

section Settled

variable {r : Central} {selected : List Nat} {scores : List Double}

theorem Cells.neighbourScores_eq {cell : Nat → Nat → Double} (h : Cells updates cell)
    (hset : Settled updates) {table : Matrix Double}
    (hrows : table.rows = (List.range updates.length).map fun i =>
      (List.range updates.length).map (cell i)) (k : Nat) :
    neighbourScores .standard table k
      = .ok ((List.range updates.length).map (cellScore cell updates.length k)) := by
  rw [neighbourScores, hrows]
  refine mapM_ok_iff.mpr (List.forall₂_map_left_iff.mpr (List.forall₂_map_right_iff.mpr ?_))
  refine List.forall₂_same.mpr fun i hi =>
    neighbourScore_eq (hset.imp (fun hl => ?_) fun hc => ?_) k
  · simpa using hl
  · exact h.row_hasRank hc (List.mem_range.mp hi)

theorem Cells.order_eq {cell : Nat → Nat → Double} (h : Cells updates cell)
    (hset : Settled updates) (k : Nat) :
    Central.order .standard ((List.range updates.length).map (cellScore cell updates.length k))
      = .ok ((insertionSort (fun a b : Double × Nat => a.1.lt b.1)
          ((List.range updates.length).map (cellScore cell updates.length k)).zipIdx).map
            Prod.snd) :=
  Central.order_eq (hset.imp (fun hl => by simpa using hl) fun hc => h.scores_hasRank hc k)

theorem select_exists (r : Central) (hset : Settled updates)
    (hlayout : ∀ p ∈ updates, ∀ q ∈ updates, p.layout = q.layout)
    (hword : r.faulty updates.length + 2 < Count.bound)
    (hf : r.faulty updates.length + 3 ≤ updates.length) :
    ∃ selected scores, (r.select updates).result = .ok (selected, scores) := by
  obtain ⟨table, ht⟩ := distances_exist hlayout
  obtain ⟨cell, hcells, hrows⟩ := rows_of_distances ht
  exact ⟨_, _, selectBy_ok_iff.mpr ⟨_, table, _, neighbourCount?_eq_some_iff.mpr ⟨hword, hf, rfl⟩,
    ht, hcells.neighbourScores_eq hset hrows _, hcells.order_eq hset _, rfl⟩⟩

theorem select_table (hset : Settled updates)
    (h : (r.select updates).result = .ok (selected, scores)) :
    ∃ table cell, distances updates = .ok table ∧ Cells updates cell ∧
      table.rows = (List.range updates.length).map (fun i =>
        (List.range updates.length).map (cell i)) ∧
      scores = (List.range updates.length).map
        (cellScore cell updates.length (updates.length - r.faulty updates.length - 2)) ∧
      ∀ i, i ∈ selected ↔ i ∈ lowest (updates.length - r.faulty updates.length) scores := by
  obtain ⟨neighbours, table, order, hn, ht, hs, ho, rfl⟩ := selectBy_ok_iff.mp h
  obtain ⟨-, -, rfl⟩ := neighbourCount?_eq_some_iff.mp hn
  obtain ⟨cell, hcells, hrows⟩ := rows_of_distances ht
  obtain rfl := Except.ok.inj (hs.symm.trans (hcells.neighbourScores_eq hset hrows _))
  obtain rfl := Except.ok.inj (ho.symm.trans (hcells.order_eq hset _))
  refine ⟨table, cell, ht, hcells, hrows, rfl, fun i => ?_⟩
  rw [mem_insertionSort, lowest, List.map_take]

theorem select_cells (hset : Settled updates)
    (h : (r.select updates).result = .ok (selected, scores)) :
    ∃ cell, Cells updates cell ∧
      scores = (List.range updates.length).map
        (cellScore cell updates.length (updates.length - r.faulty updates.length - 2)) ∧
      (∀ i, i ∈ selected ↔ i ∈ lowest (updates.length - r.faulty updates.length) scores) ∧
      selected.length = updates.length - r.faulty updates.length := by
  obtain ⟨table, cell, -, hcells, -, hscores, hmem⟩ := select_table hset h
  exact ⟨cell, hcells, hscores, hmem, selectBy_length Sorting.standard_permutes h⟩

end Settled

theorem mem_take_map_iff {β : Type} {g : β → Nat} {front back : List β} {x : β} {count : Nat}
    (h : ((front ++ x :: back).map g).Nodup) :
    g x ∈ ((front ++ x :: back).take count).map g ↔ front.length < count := by
  rw [List.map_append, List.map_cons] at h
  have hnot : g x ∉ front.map g := fun hm =>
    (List.nodup_append.mp h).2.2 _ hm _ List.mem_cons_self rfl
  constructor
  · intro hm
    by_contra hc
    rw [List.take_append_of_le_length (by omega)] at hm
    exact hnot (List.map_subset g (List.take_subset _ _) hm)
  · intro hc
    refine List.mem_map_of_mem (List.mem_take_iff_getElem.mpr ⟨front.length, ?_, ?_⟩)
    · simp only [List.length_append, List.length_cons]
      omega
    · simp

/-- How many later clients get in front of a client whose score is below nothing: those with a
lower score that come before the next invalid score. -/
def overtakers (scores : List Double) (i : Nat) : Nat :=
  match scores.drop i with
  | [] => 0
  | s :: later => (later.takeWhile fun t => !t.isNaN).countP fun t => t.lt s

theorem overtakers_of_nan {scores : List Double} (hs : scores[i]? = some nan) :
    overtakers scores i = 0 := by
  obtain ⟨hi, he⟩ := List.getElem?_eq_some_iff.mp hs
  rw [overtakers, List.drop_eq_getElem_cons hi, he]
  simp [lt_nan]

/-- Such a client is among the lowest exactly if its index and those that get in front of it leave
room. -/
theorem mem_lowest_iff {scores : List Double} {s : Double} (hs : scores[i]? = some s)
    (hbelow : ∀ t, s.lt t = false) (count : Nat) :
    i ∈ lowest count scores ↔ i + overtakers scores i < count := by
  obtain ⟨hi, he⟩ := List.getElem?_eq_some_iff.mp hs
  have hdrop : scores.drop i = s :: scores.drop (i + 1) := by
    rw [List.drop_eq_getElem_cons hi, he]
  have hzip : scores.zipIdx
      = (scores.take i).zipIdx ++ (s, i) :: (scores.drop (i + 1)).zipIdx (i + 1) := by
    conv_lhs => rw [← List.take_append_drop i scores, hdrop]
    rw [List.zipIdx_append, List.zipIdx_cons, List.length_take, Nat.zero_add,
      Nat.min_eq_left (Nat.le_of_lt hi)]
  have hbar : ∀ a b : Double × Nat, a.1.isNaN = true → b.1.lt a.1 = false ∧ a.1.lt b.1 = false := by
    rintro ⟨x, _⟩ ⟨y, _⟩ hx
    cases x with
    | nan => exact ⟨lt_nan y, nan_lt y⟩
    | number _ _ => cases hx
  obtain ⟨front, back, hsort, hlen⟩ := insertionSort_around (fun a b : Double × Nat => a.1.lt b.1)
    (fun a => a.1.isNaN) (s, i) (fun a => hbelow a.1) hbar
    (fun _ _ hb hbs has => lt_of_lt_of_not_lt hb hbs has)
    (scores.take i).zipIdx ((scores.drop (i + 1)).zipIdx (i + 1))
  have hover : front.length = i + overtakers scores i := by
    have hlater := List.zipIdx_map_fst (i + 1) (scores.drop (i + 1))
    rw [hlen, List.length_zipIdx, List.length_take, Nat.min_eq_left (Nat.le_of_lt hi), overtakers,
      hdrop]
    simp only
    conv_rhs => rw [← hlater, List.takeWhile_map, List.countP_map]
    rfl
  have hnodup := nodup_sorted scores
  rw [hzip, hsort] at hnodup
  rw [lowest, hzip, hsort, ← hover]
  exact mem_take_map_iff hnodup

end Central

end Federation
