import Federation.Proofs.Retention
import Federation.Proofs.Symmetry

/-!
# Unanimity

Where all clients send one update, every row of the table holds one value and a zero, which stands
at another place for each client. A zero changes no sum of numbers that are not below zero, so the
scores are one number, bit by bit, whatever the rounding does to it. That number is their median,
and nobody is away from it: the edit keeps all clients or, in strict mode, refuses the round.
-/

set_option autoImplicit false

namespace Federation

namespace Binary

open FloatFormat (double)

variable {f : FloatFormat} {x : Binary f} {r s : Nat}

theorem HasRank.add_atRank (hx : x.HasRank r) (hs : s ≤ f.top) :
    x + atRank false s = atRank false (f.plus r s) := by
  have hsum := hx.add (hasRank_atRank hs)
  rcases Nat.eq_zero_or_pos (f.plus r s) with hz | hpos
  · have hl := f.le_plus_left s hx.le_top
    have hu := f.le_plus_right r hs
    obtain ⟨rfl, rfl⟩ : r = 0 ∧ s = 0 := by omega
    obtain ⟨n, a, rfl, ha, -⟩ := hasRank_iff.mp hx
    have htop := Nat.ne_of_lt f.top_pos
    rw [hz, ← atRank_val, ha]
    show Binary.add _ _ = _
    simp only [Binary.add, atRank, Nat.zero_min, if_neg htop, ofUnits, FloatFormat.signedUnits,
      f.units_zero, Bool.and_false]
    cases n <;> rfl
  · exact hsum.eq_atRank hpos

theorem foldl_atRank {xs : List (Binary f)} (h : ∀ x ∈ xs, x.HasRank x.rank) (hr : r ≤ f.top) :
    xs.foldl (· + ·) (atRank false r) = atRank false (f.tally r (xs.map rank)) := by
  induction xs generalizing r with
  | nil => rfl
  | cons x xs ih =>
    rw [List.foldl_cons, Binary.add_comm, (h x (by simp)).add_atRank hr, f.plus_comm,
      ih (fun y hy => h y (by simp [hy])) (f.plus_le_top r x.rank)]
    rfl

/-- A zero among magnitudes leaves their sum as it is without it, up to the sign of zero. -/
theorem sum_around_zero {xs ys : List (Binary f)} (hx : ∀ x ∈ xs, x.HasRank x.rank)
    (hy : ∀ y ∈ ys, y.HasRank y.rank) :
    Scalar.sum (xs ++ zero :: ys) = atRank false (f.tally 0 ((xs ++ ys).map rank)) := by
  have hfront : (xs.foldl (· + ·) negZero).HasRank (f.tally 0 (xs.map rank)) :=
    (hasRank_vanishing true).foldl
      (List.forall₂_map_right_iff.mpr (List.forall₂_same.mpr hx))
  have hle := f.tally_le_top (xs.map rank) (Nat.zero_le _)
  show (xs ++ zero :: ys).foldl (· + ·) negZero = _
  rw [List.foldl_append, List.foldl_cons, zero, hfront.add_atRank (Nat.zero_le _),
    f.plus_zero hle, foldl_atRank hy hle, List.map_append, f.tally_append]

theorem atRank_div_le (hr : r < f.top) (hy : x.HasRank s) (hone : f.one ≤ f.units s) :
    ∃ q ≤ r, atRank false r / x = atRank false q := by
  have hpos := pos_of_one_le hone
  rw [hy.eq_atRank hpos]
  rcases Nat.lt_or_eq_of_le hy.le_top with ht | rfl
  · rw [div_atRank hr ht hpos]
    have hd := f.units_pos hpos
    exact ⟨_, f.nearest_le hd (Nat.le_of_lt hr) (Nat.mul_le_mul_left _ hone), rfl⟩
  · exact ⟨0, Nat.zero_le r, div_of_top hr⟩

theorem middle_self {q e : Nat} (hq : q ≤ double.power e) (he : e ≤ 1022) :
    ((atRank false q + atRank false q) / Scalar.ofNat 2 : Double) = atRank false q := by
  have htop : q ≤ double.top := le_trans hq (le_of_lt (FloatFormat.power_lt_top (by omega)))
  have hrank : (atRank false q : Double).HasRank q := hasRank_atRank htop
  have hsum : double.plus q q < double.top := by
    refine lt_of_le_of_lt ?_ (FloatFormat.power_lt_top (show e + 1 ≤ 1023 by omega))
    rw [← plus_power he]
    exact double.plus_mono hq hq
  obtain ⟨p, hle, hmiddle⟩ := atRank_div_le hsum two_hasRank (by
    rw [FloatFormat.units_power]
    exact Nat.le_mul_of_pos_left _ (by decide))
  rw [← hrank.add_atRank htop] at hmiddle
  obtain ⟨t, ht, hlow, hhigh⟩ := hrank.middle hrank le_rfl hq he
  rw [hmiddle] at ht ⊢
  have hpt := (hasRank_atRank (le_trans hle (Nat.le_of_lt hsum))).unique ht
  rw [hpt, le_antisymm hhigh hlow]

end Binary

namespace Statistics

open Binary FloatFormat

theorem median?_replicate {n q e : Nat} (hn : 0 < n) (hq : q ≤ double.power e) (he : e ≤ 1022) :
    median? (List.replicate n (atRank false q : Double)) = some (atRank false q) := by
  have hne : List.replicate n (atRank false q : Double) ≠ [] :=
    List.ne_nil_of_length_pos (by rwa [List.length_replicate])
  obtain ⟨m, hm⟩ := median?_exists hne
  rw [hm, Option.some.injEq]
  have hcopy : ∀ i (hi : i < (insertionSort Scalar.lt
      (List.replicate n (atRank false q : Double))).length),
      (insertionSort Scalar.lt (List.replicate n (atRank false q : Double)))[i] = atRank false q :=
    fun i hi => List.eq_of_mem_replicate (mem_insertionSort.mp (List.getElem_mem hi))
  rcases median?_cases hm with ⟨i, hi, -, rfl⟩ | ⟨i, hi, -, rfl⟩
  · exact hcopy i hi
  · rw [hcopy i (Nat.lt_of_succ_lt hi), hcopy (i + 1) hi, middle_self hq he]

namespace TwoSigma

theorem ofValues_replicate {n q e : Nat} (hn : 0 < n) (hq : q ≤ double.power e) (he : e ≤ 1022) :
    ofValues (List.replicate n (atRank false q))
      = .ok ⟨atRank false q, Scalar.zero, List.replicate n (.measured Scalar.zero)⟩ := by
  have hfinite : (atRank false q : Double).isFinite = true :=
    isFinite_atRank (lt_of_le_of_lt hq (power_lt_top (by omega)))
  have hself := Binary.sub_self hfinite
  have hspread : (zero / normalDeviation : Double) = Scalar.zero := by decide +kernel
  have hscore : score (atRank false q : Double) Scalar.zero (atRank false q)
      = .measured Scalar.zero := by
    rw [score, hself]
    rfl
  refine ofValues_ok_iff.mpr ⟨fun v hv => List.eq_of_mem_replicate hv ▸ hfinite, ?_⟩
  refine standardize?_eq_some_iff.mpr ⟨_, zero, median?_replicate hn hq he, ?_, ?_⟩
  · rw [List.map_replicate, hself]
    exact median?_replicate hn (Nat.zero_le (double.power 0)) (Nat.zero_le 1022)
  · rw [hspread, List.map_replicate, hscore]

theorem partition_zeros {n : Nat} {center spread threshold : Double}
    (h : Scalar.lt Scalar.zero threshold = true) :
    (⟨center, spread, List.replicate n (.measured Scalar.zero)⟩ : TwoSigma Double).partition
      threshold = (List.range n, []) := by
  rw [partition_of_all fun z hz => ?_, List.length_replicate]
  rw [List.eq_of_mem_replicate hz]
  exact h

end TwoSigma

end Statistics

namespace Information

open Statistics Binary FloatFormat

variable {t : Matrix Double} {n : Nat}

theorem map_range_of_single {α : Type} {g : Nat → α} {v z : α} {i : Nat} (hi : i < n)
    (hz : g i = z) (hv : ∀ j < n, i ≠ j → g j = v) :
    (List.range n).map g = List.replicate i v ++ z :: List.replicate (n - 1 - i) v := by
  apply List.ext_getElem
  · simp
    omega
  · intro j hj hj'
    rw [List.length_map, List.length_range] at hj
    rw [List.getElem_map, List.getElem_range]
    rcases Nat.lt_trichotomy j i with hlt | rfl | hgt
    · rw [List.getElem_append_left (by simpa using hlt), List.getElem_replicate,
        hv j hj (Nat.ne_of_gt hlt)]
    · rw [hz]
      simp
    · rw [hv j hj (Nat.ne_of_lt hgt)]
      simp [List.getElem_append, List.getElem_cons, Nat.not_lt_of_gt hgt,
        Nat.sub_ne_zero_of_lt hgt]

theorem rows_of_replicate {o : Matrix Single}
    (h : (table (List.replicate n o)).result = .ok t) :
    ∃ v : Double, v.HasRank v.rank ∧ v.rank ≤ double.power 10 ∧
      t.rows = (List.range n).map fun i =>
        List.replicate i v ++ zero :: List.replicate (n - 1 - i) v := by
  obtain ⟨cell, hdiagonal, hshared, hrows⟩ := cells_of_table h
  have hget : ∀ i < n, (List.replicate n o)[i]? = some o := fun i hi =>
    List.getElem?_replicate_of_lt hi
  obtain ⟨v, ⟨r, hr, hle⟩, hv⟩ : ∃ v : Double, (∃ r, v.HasRank r ∧ r ≤ double.power 10) ∧
      ∀ i < n, ∀ j < n, i ≠ j → cell i j = v := by
    by_cases hc : ∃ rho, correlation o o = .ok rho
    · obtain ⟨rho, hrho⟩ := hc
      refine ⟨_, mutualInformation_hasRank rho, fun i hi j hj hij => ?_⟩
      obtain ⟨rho', hrho', hcell⟩ := hshared i j o o hij (hget i hi) (hget j hj)
      rw [hrho, Except.ok.injEq] at hrho'
      rw [hcell, hrho']
    · refine ⟨zero, ⟨0, hasRank_zero, Nat.zero_le _⟩, fun i hi j hj hij => ?_⟩
      obtain ⟨rho, hrho, -⟩ := hshared i j o o hij (hget i hi) (hget j hj)
      exact absurd ⟨rho, hrho⟩ hc
  refine ⟨v, hr.rank_eq.symm ▸ hr, hr.rank_eq.symm ▸ hle, ?_⟩
  rw [hrows, List.length_replicate]
  refine List.map_congr_left fun i hi => ?_
  rw [List.mem_range] at hi
  exact map_range_of_single hi (hdiagonal i) fun j hj hij => hv i hi j hj hij

theorem clientScores_replicate {o : Matrix Single} (hn : 0 < n)
    (h : (table (List.replicate n o)).result = .ok t) :
    ∃ q ≤ double.power 64, clientScores t = List.replicate n (atRank false q) := by
  obtain ⟨v, hv, hle, hrows⟩ := rows_of_replicate h
  have hwidth : t.width = n := by
    rw [table, Pairwise.result_table] at h
    rw [Pairwise.width_table h, List.length_replicate]
  have hmem : ∀ k, ∀ x ∈ List.replicate k v, x.HasRank x.rank := fun k x hx =>
    List.eq_of_mem_replicate hx ▸ hv
  -- wherever the zero stands, the sum is that of the other entries
  have hsum : ∀ i < n, Scalar.sum (List.replicate i v ++ zero :: List.replicate (n - 1 - i) v)
      = atRank false (double.tally 0 (List.replicate (n - 1) v.rank)) := by
    intro i hi
    rw [sum_around_zero (hmem _) (hmem _), List.replicate_append_replicate, List.map_replicate,
      Nat.add_sub_cancel' (by omega)]
  have hstall : double.plus (double.power 64) (double.power 10) ≤ double.power 64 :=
    plus_power_stall le_rfl (by decide)
  have htally : double.tally 0 (List.replicate (n - 1) v.rank) ≤ double.power 64 :=
    double.tally_le_of_stall hstall (Nat.zero_le _) fun r hr => List.eq_of_mem_replicate hr ▸ hle
  obtain ⟨c, hc, hone⟩ := one_le_count hn
  obtain ⟨q, hq, hmean⟩ := atRank_div_le
    (lt_of_le_of_lt htally (power_lt_top (by decide))) hc hone
  refine ⟨q, le_trans hq htally, ?_⟩
  rw [clientScores, hrows, hwidth, List.map_map, List.eq_replicate_iff]
  refine ⟨by simp, fun s hs => ?_⟩
  obtain ⟨i, hi, rfl⟩ := List.mem_map.mp hs
  rw [Function.comp_apply, hsum i (List.mem_range.mp hi), hmean]

variable {r : Information} {model u : Params Single}

theorem outputs_of_replicate (hn : 0 < n)
    (h : (r.clientTable model (List.replicate n u)).2.result = .ok t) :
    (∀ w ∈ List.replicate n u, w.layout = model.layout) ∧
      ∃ o, (table (List.replicate n o)).result = .ok t := by
  have hne : List.replicate n u ≠ [] :=
    List.ne_nil_of_length_pos (by rwa [List.length_replicate])
  have hlayout : ∀ w ∈ List.replicate n u, w.layout = model.layout := by
    intro w hw
    simp only [clientTable, clientOutputs] at h
    cases hm : (List.replicate n u).mapM model.sub with
    | error fault =>
      rw [hm] at h
      cases h
    | ok models =>
      obtain ⟨m, hsub⟩ := forall_of_mapM_ok hm w hw
      exact (Params.addScaled_layout hsub).1.symm
  refine ⟨hlayout, ?_⟩
  cases hp : r.probe.obstacle? r.batch model.layout with
  | some fault =>
    rw [clientTable_of_obstacle hne hlayout hp] at h
    cases h
  | none =>
    obtain ⟨ht, hlen, -⟩ := clientTable_of_no_obstacle hlayout hp
    rw [ht] at h
    rw [outputs, arrived, List.filterMap_filterMap, List.filterMap_replicate] at hlen h
    cases ho : (model.sub u).toOption.bind (r.probe.output? r.batch) with
    | none =>
      simp only [ho, List.length_nil, List.length_replicate] at hlen
      omega
    | some o =>
      rw [ho] at h
      exact ⟨o, h⟩

/-- In a round of one update, sent by all clients, everybody gets the same score once the outputs
have been compared, and the scores do not scatter. In strict mode this is the end of the round;
otherwise all clients are selected, for every positive threshold. -/
theorem unanimous_round (r : Information) (state : State Single) (n : Nat) (u : Params Single)
    (t : Matrix Double) (hn : 1 ≤ n) (hmom : state.momentum.layout = state.model.layout)
    (h : (r.clientTable state.model (List.replicate n u)).2.result = .ok t) :
    ∃ s edit, clientScores t = List.replicate n s ∧
      TwoSigma.ofValues (clientScores t) = .ok edit ∧ edit.median = s ∧
      edit.spread = Scalar.zero ∧
      (r.strict = true → (r.round state (List.replicate n u)).2.result
        = .error (.statistics (.zeroDeviation s))) ∧
      (r.strict = false → Scalar.lt Scalar.zero r.threshold = true →
        ∃ outcome, (r.round state (List.replicate n u)).2.result = .ok outcome ∧
          outcome.selected = List.range n ∧ outcome.rejected = [] ∧
          outcome.scores = some (List.replicate n s)) := by
  obtain ⟨hlayout, o, ht⟩ := outputs_of_replicate hn h
  obtain ⟨q, hq, hscores⟩ := clientScores_replicate hn ht
  have hedit := TwoSigma.ofValues_replicate hn hq (by decide)
  rw [← hscores] at hedit
  have hne : List.replicate n u ≠ [] :=
    List.ne_nil_of_length_pos (by rwa [List.length_replicate])
  have hd := conclude_decided (r := r) hlayout (clientScores_length h) hedit
  rw [← result_of_table (Average.check_ok_iff.mpr ⟨hne, hlayout⟩) h, hscores] at hd
  refine ⟨_, _, hscores, hedit, rfl, rfl, fun hstrict => ?_, fun hlenient hpos => ?_⟩
  · rwa [editObstacle?, if_pos ⟨rfl, hstrict⟩] at hd
  · have hall : (⟨atRank false q, Scalar.zero, List.replicate n (.measured Scalar.zero)⟩ :
        TwoSigma Double).partition r.threshold = (List.range n, []) :=
      TwoSigma.partition_zeros hpos
    have hkept : List.range n ≠ [] := List.ne_nil_of_length_pos (by rwa [List.length_range])
    rw [editObstacle?_eq_none (by rwa [hall]) hasRank_zero (Or.inl hlenient) hmom] at hd
    obtain ⟨outcome, ho, hsplit, hs⟩ := hd
    rw [hall, Prod.mk.injEq] at hsplit
    exact ⟨outcome, ho, hsplit.1, hsplit.2, hs⟩

theorem unanimous_round_columns :
    (∃ outcome, (threefold.round (.fresh (columns 0 0 0))
        (List.replicate 4 (columns 1 2 3))).2.result = .ok outcome ∧
      outcome.selected = [0, 1, 2, 3] ∧ outcome.rejected = []) ∧
    ∃ s, ({ threefold with strict := true }.round (.fresh (columns 0 0 0))
      (List.replicate 4 (columns 1 2 3))).2.result = .error (.statistics (.zeroDeviation s)) := by
  have hlayout : ∀ w ∈ List.replicate 4 (columns 1 2 3), w.layout = (columns 0 0 0).layout :=
    fun w hw => List.eq_of_mem_replicate hw ▸ rfl
  obtain ⟨ht, -, hsize⟩ := clientTable_of_no_obstacle (r := threefold) hlayout (by decide)
  obtain ⟨table, htable⟩ := (table_decided hsize).1 (by decide +kernel)
  obtain ⟨_, _, -, -, -, -, -, hselects⟩ :=
    unanimous_round threefold (.fresh (columns 0 0 0)) 4
    (columns 1 2 3) table (by decide) rfl (ht.trans htable)
  obtain ⟨outcome, ho, hselected, hrejected, -⟩ := hselects rfl (by decide +kernel)
  obtain ⟨s, _, -, -, -, -, hfails, -⟩ := unanimous_round { threefold with strict := true }
    (.fresh (columns 0 0 0)) 4 (columns 1 2 3) table (by decide) rfl (ht.trans htable)
  exact ⟨⟨outcome, ho, hselected, hrejected⟩, s, hfails rfl⟩

end Information

end Federation
