import Federation.Proofs.Equivariance
import Mathlib.Algebra.Order.Field.Basic
import Mathlib.Data.List.FinRange

/-!
# What an edit does not see

Whom the two-sigma edit keeps depends on the values alone, not on the order in which they stand. In
exact arithmetic it does not depend on where their zero is, on their unit or on their sign either:
the median moves with the values and the spread with their distances, so the scores at most change
their signs. So it makes no difference to a decision whether a row is averaged with or without the
zero that it has on the diagonal.
-/

set_option autoImplicit false

namespace Federation

namespace Statistics.TwoSigma

section Kept

variable {α : Type} [Scalar α] {edit : TwoSigma α} {threshold : α} {i : Nat}

theorem mem_kept_iff :
    i ∈ (edit.partition threshold).1 ↔ edit.keeps threshold i = true := by
  rw [partition, List.partition_eq_filter_filter, List.mem_filter, List.mem_range]
  refine and_iff_right_of_imp fun h => ?_
  by_contra hge
  rw [keeps, List.getElem?_eq_none (Nat.le_of_not_lt hge)] at h
  cases h

theorem keeps_map (values : List α) (g : α → Score α) (center spread : α) :
    (⟨center, spread, values.map g⟩ : TwoSigma α).keeps threshold i
      = values[i]?.any fun v => (g v).isWithin threshold := by
  rw [keeps, List.getElem?_map, Option.any_map]

theorem partition_congr {edit' : TwoSigma α} (hl : edit'.scores.length = edit.scores.length)
    (hk : ∀ i, edit'.keeps threshold i = edit.keeps threshold i) :
    edit'.partition threshold = edit.partition threshold := by
  rw [partition, partition, hl, funext hk]

end Kept

section Order

open Binary

variable {values values' : List Double} {edit edit' : TwoSigma Double}
  {center center' spread spread' : Double} {w : Nat}

theorem isWithin_score_congr (hc : center.position = center'.position) (hw : spread.HasRank w)
    (hs : spread.position = spread'.position) (v threshold : Double) :
    (score center spread v).isWithin threshold = (score center' spread' v).isWithin threshold := by
  have hdeviation : (v - center).position = (v - center').position := position_sub_congr rfl hc
  have hlt : Scalar.lt Scalar.zero spread = Scalar.lt Scalar.zero spread' :=
    compares_congr _ rfl hs
  have heq : Scalar.eq (v - center) Scalar.zero = Scalar.eq (v - center') Scalar.zero :=
    compares_congr _ hdeviation rfl
  unfold score
  simp only [← hlt, ← heq]
  by_cases hpos : Scalar.lt Scalar.zero spread = true
  · rw [if_pos hpos, if_pos hpos]
    have hrank : 0 < w := by
      have hlt := (hasRank_zero : (zero : Double).HasRank 0).lt_eq hw
      exact of_decide_eq_true (hlt.symm.trans hpos)
    have hquotient := position_div_congr hdeviation hw hrank hs
    refine compares_congr _ ?_ rfl
    show (Binary.abs _).position = (Binary.abs _).position
    rw [position_abs, position_abs, hquotient]
  · rw [if_neg hpos, if_neg hpos]
    split <;> rfl

theorem position_deviation (hc : center'.position = center.position) (v : Double) :
    (Scalar.abs (v - center')).position = (Scalar.abs (v - center)).position := by
  show (Binary.abs _).position = (Binary.abs _).position
  rw [position_abs, position_abs, position_sub_congr rfl hc]

theorem deviations_isNaN (hv : ∀ v ∈ values, v.isFinite = true) (hc : center.isNaN = false) :
    ∀ d ∈ values.map fun v => Scalar.abs (v - center), d.isNaN = false := by
  intro d hd
  obtain ⟨r, hr⟩ := deviations_unsigned hv hc d hd
  exact hr.isNaN

/-- What edits of the same values in two orders have in common. -/
structure SamePlaces (edit edit' : TwoSigma Double) : Prop where
  median : edit'.median.position = edit.median.position
  spread : edit'.spread.position = edit.spread.position
  median_isNaN : edit'.median.isNaN = false
  spread_hasRank : ∃ w, edit'.spread.HasRank w

theorem samePlaces_of_perm (hp : values'.Perm values) (h : ofValues values = .ok edit)
    (h' : ofValues values' = .ok edit') : SamePlaces edit edit' := by
  obtain ⟨hv, hs⟩ := ofValues_ok_iff.mp h
  obtain ⟨hv', hs'⟩ := ofValues_ok_iff.mp h'
  obtain ⟨center, deviation, hc, hd, rfl⟩ := standardize?_eq_some_iff.mp hs
  obtain ⟨center', deviation', hc', hd', rfl⟩ := standardize?_eq_some_iff.mp hs'
  have hnan := (median?_of_finite hv hc).1
  have hnan' := (median?_of_finite hv' hc').1
  have hcenter : center'.position = center.position := by
    have hm := median?_position (fun v hmem => isNaN_of_isFinite (hv' v hmem))
      (fun v hmem => isNaN_of_isFinite (hv v hmem)) (hp.map position)
    rw [hc, hc'] at hm
    exact Option.some.inj hm
  have hdeviation : deviation'.position = deviation.position := by
    have hplaces := hp.map fun v => (Scalar.abs (v - center)).position
    have hm := median?_position (deviations_isNaN hv' hnan') (deviations_isNaN hv hnan) (by
      simpa only [List.map_map, Function.comp_def, position_deviation hcenter] using hplaces)
    rw [hd, hd'] at hm
    exact Option.some.inj hm
  obtain ⟨hn, hpos, -⟩ := normalDeviation_rank
  exact ⟨hcenter, position_div_congr hdeviation hn hpos rfl, hnan', spread_exists hv' hnan' hd'⟩

def reordered (values : List Double) (order : Equiv.Perm (Fin values.length)) : List Double :=
  List.ofFn (values.get ∘ order)

variable (order : Equiv.Perm (Fin values.length))

theorem reordered_perm : (reordered values order).Perm values := by
  have h := Equiv.Perm.ofFn_comp_perm order values.get
  rwa [List.ofFn_get] at h

theorem getElem?_reordered (i : Fin values.length) :
    (reordered values order)[i.val]? = values[(order i).val]? := by
  simp [reordered]

theorem kept_reordered (h : ofValues values = .ok edit)
    (h' : ofValues (reordered values order) = .ok edit') (threshold : Double)
    (i : Fin values.length) : i.val ∈ (edit'.partition threshold).1 ↔
      (order i).val ∈ (edit.partition threshold).1 := by
  obtain ⟨hcenter, hspread, -, w, hw⟩ := samePlaces_of_perm (reordered_perm order) h h'
  obtain ⟨center, deviation, -, -, rfl⟩ := standardize?_eq_some_iff.mp (ofValues_ok_iff.mp h).2
  obtain ⟨center', deviation', -, -, rfl⟩ := standardize?_eq_some_iff.mp (ofValues_ok_iff.mp h').2
  rw [mem_kept_iff, mem_kept_iff, keeps_map, keeps_map, getElem?_reordered]
  simp only [isWithin_score_congr hcenter hw hspread]

end Order

/-- Edits that decide alike, whatever the threshold is. -/
structure DecidesAlike {α : Type} [Scalar α] (edit edit' : TwoSigma α) : Prop where
  degenerate : edit'.isDegenerate = edit.isDegenerate
  partition : ∀ threshold, edit'.partition threshold = edit.partition threshold

section Affine

variable {a b : Rat} (ha : a ≠ 0) {values : List Rat} {edit : TwoSigma Rat}

include ha

theorem isWithin_score_affine (center spread v threshold : Rat) :
    (score (a * center + b) (|a| * spread) (a * v + b)).isWithin threshold
      = (score center spread v).isWithin threshold := by
  have hdeviation : a * v + b - (a * center + b) = a * (v - center) := by ring
  have hscale : 0 < |a| := abs_pos.mpr ha
  unfold score
  simp only [hdeviation, Scalar.lt_rat, Scalar.eq_rat, Scalar.zero_rat, decide_eq_true_eq]
  by_cases hpos : 0 < spread
  · rw [if_pos hpos, if_pos (mul_pos hscale hpos)]
    simp only [Score.isWithin, Scalar.abs_rat, Scalar.lt_rat]
    rw [abs_div, abs_mul, abs_mul, abs_abs, mul_div_mul_left _ _ hscale.ne', ← abs_div]
  · rw [if_neg hpos, if_neg (mt (mul_pos_iff_of_pos_left hscale).mp hpos)]
    simp only [mul_eq_zero, ha, false_or]
    split <;> rfl

theorem standardize?_affine (h : standardize? values = some edit) :
    standardize? (values.map fun v => a * v + b)
      = some ⟨a * edit.median + b, |a| * edit.spread, (values.map fun v => a * v + b).map
          (score (a * edit.median + b) (|a| * edit.spread))⟩ := by
  obtain ⟨center, deviation, hc, hd, rfl⟩ := standardize?_eq_some_iff.mp h
  refine standardize?_eq_some_iff.mpr ⟨a * center + b, |a| * deviation + 0, ?_, ?_, ?_⟩
  · rw [median?_affine ha, hc]
    rfl
  · have hdeviations :
        (values.map fun v => a * v + b).map (fun v => Scalar.abs (v - (a * center + b)))
          = (values.map fun v => Scalar.abs (v - center)).map fun d => |a| * d + 0 := by
      rw [List.map_map, List.map_map]
      apply List.map_congr_left
      intro v _
      simp only [Function.comp_apply, Scalar.abs_rat, add_zero, ← abs_mul]
      congr 1
      ring
    rw [hdeviations, median?_affine (abs_ne_zero.mpr ha), hd]
    rfl
  · rw [add_zero, mul_div_assoc]

theorem affine_decidesAlike (h : standardize? values = some edit) :
    ∃ edit', standardize? (values.map fun v => a * v + b) = some edit' ∧
      DecidesAlike edit edit' := by
  refine ⟨_, standardize?_affine ha h, ?_, fun threshold => ?_⟩
  · have hzero : |a| * edit.spread = 0 ↔ edit.spread = 0 := by simp [ha]
    simp only [isDegenerate, Scalar.eq_rat, Scalar.zero_rat, hzero]
  · obtain ⟨center, deviation, -, -, rfl⟩ := standardize?_eq_some_iff.mp h
    apply partition_congr
    · simp
    · intro i
      rw [keeps_map, keeps_map, List.getElem?_map, Option.any_map]
      simp only [isWithin_score_affine ha]

end Affine

def rowMeans {α : Type} [Scalar α] (table : Matrix α) : List α :=
  table.rows.map fun row => Scalar.sum row / Scalar.ofNat table.width

def otherMeans {α : Type} [Scalar α] (table : Matrix α) : List α :=
  table.rows.mapIdx fun i row => Scalar.sum (row.eraseIdx i) / Scalar.ofNat (table.width - 1)

theorem clientScores_eq_rowMeans (table : Matrix Double) :
    Information.clientScores table = rowMeans table := rfl

/-- A square table of at least two rows with zeros on the diagonal. -/
structure Hollow (table : Matrix Rat) : Prop where
  two_le : 2 ≤ table.width
  square : table.height = table.width
  diagonal : ∀ i < table.width, table.entry? i i = some 0

theorem sum_eraseIdx {row : List Rat} {i : Nat} (h : row[i]? = some 0) :
    (row.eraseIdx i).sum = row.sum := by
  obtain ⟨hi, hz⟩ := List.getElem?_eq_some_iff.mp h
  rw [← (List.getElem_cons_eraseIdx_perm hi).sum_eq, List.sum_cons, hz, zero_add]

theorem Hollow.rowMeans_eq {table : Matrix Rat} (h : Hollow table) :
    rowMeans table = (otherMeans table).map fun v =>
      ((table.width - 1 : Nat) : Rat) / table.width * v + 0 := by
  apply List.ext_getElem
  · simp [rowMeans, otherMeans]
  · intro i hi hi'
    have hrow : i < table.rows.length := by simpa [rowMeans] using hi
    have hzero := h.diagonal i (h.square ▸ hrow)
    rw [Matrix.entry?, List.getElem?_eq_getElem hrow, Option.bind_some] at hzero
    have hothers : ((table.width - 1 : Nat) : Rat) ≠ 0 := by
      have := h.two_le
      exact Nat.cast_ne_zero.mpr (by omega)
    simp only [rowMeans, otherMeans, List.getElem_map, List.getElem_mapIdx, Scalar.sum_rat,
      Scalar.ofNat_rat, add_zero, sum_eraseIdx hzero]
    rw [div_mul_div_comm, mul_comm, mul_div_mul_right _ _ hothers]

/-- What the decisions of an edit do not depend on. Finite values in another order have an equal
median and an equal spread, and the same of them are kept. In exact arithmetic no affine map that
can be undone changes whom any threshold keeps, nor whether the values scatter. So the scores of
clients, which are means with the diagonal, decide like the means without it, if there are two
clients at least. -/
theorem decisions_invariant :
    (∀ values : List Double, values ≠ [] → (∀ v ∈ values, v.isFinite = true) →
      ∀ order : Equiv.Perm (Fin values.length), ∃ edit edit',
        ofValues values = .ok edit ∧ ofValues (reordered values order) = .ok edit' ∧
        edit'.median.eq edit.median = true ∧ edit'.spread.eq edit.spread = true ∧
        edit'.isDegenerate = edit.isDegenerate ∧
        ∀ threshold i, i.val ∈ (edit'.partition threshold).1 ↔
          (order i).val ∈ (edit.partition threshold).1) ∧
    (∀ (a b : Rat) (values : List Rat), a ≠ 0 → values ≠ [] → ∃ edit edit',
      standardize values = .ok (some edit) ∧
      standardize (values.map fun v => a * v + b) = .ok (some edit') ∧ DecidesAlike edit edit') ∧
    (∀ table : Matrix Double, Information.clientScores table = rowMeans table) ∧
    ∀ table : Matrix Rat, Hollow table → ∃ edit edit',
      standardize (otherMeans table) = .ok (some edit) ∧
      standardize (rowMeans table) = .ok (some edit') ∧ DecidesAlike edit edit' := by
  refine ⟨?_, ?_, clientScores_eq_rowMeans, ?_⟩
  · intro values hne hv order
    have hp := reordered_perm order
    obtain ⟨edit, he⟩ := ofValues_exists hne hv
    obtain ⟨edit', he'⟩ := ofValues_exists (fun h => hne (h ▸ hp).symm.eq_nil)
      fun v hmem => hv v (hp.mem_iff.mp hmem)
    obtain ⟨hmedian, hspread, hnan, w, hw⟩ := samePlaces_of_perm hp he he'
    exact ⟨edit, edit', he, he', Binary.eq_of_position hnan hmedian,
      Binary.eq_of_position hw.isNaN hspread, Binary.compares_congr _ hspread rfl,
      kept_reordered order he he'⟩
  · intro a b values ha hne
    obtain ⟨edit, he⟩ := standardize?_exists hne
    obtain ⟨edit', he', halike⟩ := affine_decidesAlike (b := b) ha he
    exact ⟨edit, edit', by rw [standardize_rat, he], by rw [standardize_rat, he'], halike⟩
  · intro table h
    have hrows : table.rows ≠ [] := by
      rw [← List.length_pos_iff]
      exact lt_of_lt_of_le Nat.two_pos (h.two_le.trans_eq h.square.symm)
    obtain ⟨edit, he⟩ := standardize?_exists
      (show otherMeans table ≠ [] by simpa [otherMeans] using hrows)
    have hscale : ((table.width - 1 : Nat) : Rat) / table.width ≠ 0 := by
      have := h.two_le
      exact div_ne_zero (Nat.cast_ne_zero.mpr (by omega)) (Nat.cast_ne_zero.mpr (by omega))
    obtain ⟨edit', he', halike⟩ := affine_decidesAlike (b := 0) hscale he
    rw [← h.rowMeans_eq] at he'
    exact ⟨edit, edit', by rw [standardize_rat, he], by rw [standardize_rat, he'], halike⟩

def chain : Matrix Rat := ⟨3, [[0, 3, 0], [3, 0, 6], [0, 6, 0]], by decide⟩

theorem decisions_invariant_chain :
    (∃ edit edit', ofValues [.zero, .negZero, .ofNat 1] = .ok edit ∧
      ofValues (reordered [.zero, .negZero, .ofNat 1] (Equiv.swap 0 1)) = .ok edit' ∧
      edit'.median.eq edit.median = true) ∧
    (∃ edit edit', standardize [(1 : Rat), 2, 4, 50] = .ok (some edit) ∧
      standardize ([(1 : Rat), 2, 4, 50].map fun v => -2 * v + 1) = .ok (some edit') ∧
      edit'.partition 2 = edit.partition 2) ∧
    Hollow chain ∧ rowMeans chain = [1, 3, 2] ∧ ∃ edit edit',
      standardize (otherMeans chain) = .ok (some edit) ∧
      standardize (rowMeans chain) = .ok (some edit') ∧
      edit'.partition 1 = edit.partition 1 := by
  obtain ⟨horder, haffine, -, hdiagonal⟩ := decisions_invariant
  have hchain : Hollow chain := ⟨by decide, rfl, by decide⟩
  refine ⟨?_, ?_, hchain, by decide +kernel, ?_⟩
  · obtain ⟨edit, edit', he, he', hm, -⟩ :=
      horder [.zero, .negZero, .ofNat 1] (by simp) (by decide +kernel) (Equiv.swap 0 1)
    exact ⟨edit, edit', he, he', hm⟩
  · obtain ⟨edit, edit', he, he', halike⟩ := haffine (-2) 1 [1, 2, 4, 50] (by decide) (by simp)
    exact ⟨edit, edit', he, he', halike.partition 2⟩
  · obtain ⟨edit, edit', he, he', halike⟩ := hdiagonal chain hchain
    exact ⟨edit, edit', he, he', halike.partition 1⟩

end Statistics.TwoSigma

end Federation
