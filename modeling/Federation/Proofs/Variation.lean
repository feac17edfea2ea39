import Federation.Proofs.Contagion
import Federation.Proofs.Float.Accumulation
import Federation.Proofs.Symmetry

/-!
# Variation of rows

A row of outputs is used for a correlation exactly if it varies in both outputs: its entries are
finite, and not all of them are equal. Copies of one entry have that entry as their mean, without
any rounding, so their deviations vanish. Two entries that differ are a grain apart at least, so one
of them is half a grain away from whatever mean the rounding arrives at, and its square is far from
where double precision ends. So is the sum of all squares at the other end. All correlations are
finite, and the rows that do not vary are as good as absent.
-/

set_option autoImplicit false

namespace Federation.Statistics

open Binary
open FloatFormat (single double grain bit)

variable {row a b : List Single}

/-- All entries are finite, and two of them differ. Both zeros are equal. -/
def Varies (row : List Single) : Prop :=
  (∀ x ∈ row, x.isFinite = true) ∧ ∃ x ∈ row, ∃ y ∈ row, x.eq y = false

instance (row : List Single) : Decidable (Varies row) := inferInstanceAs (Decidable (_ ∧ _))

def deviations (row : List Single) : List Double := row.map fun x => x.toDouble - mean row

def products (ds es : List Double) : List Double := (ds.zip es).map fun e => e.1 * e.2

def squares (ds : List Double) : List Double := ds.map fun d => d * d

def scatter (row : List Single) : Double :=
  (squares (deviations row)).foldl (· + ·) Scalar.zero

def coscatter (a b : List Single) : Double :=
  (products (deviations a) (deviations b)).foldl (· + ·) Scalar.zero

theorem foldl_moments (c d : Double) (h : a.length = b.length) (m : Moments) :
    (a.zip b).foldl (fun m e => m.add (e.1.toDouble - c) (e.2.toDouble - d)) m =
      ⟨(products (a.map (·.toDouble - c)) (b.map (·.toDouble - d))).foldl (· + ·) m.covariance,
        (squares (a.map (·.toDouble - c))).foldl (· + ·) m.firstVariance,
        (squares (b.map (·.toDouble - d))).foldl (· + ·) m.secondVariance⟩ := by
  induction a generalizing b m with
  | nil =>
    cases b with
    | nil => rfl
    | cons y b => cases h
  | cons x a ih =>
    cases b with
    | nil => cases h
    | cons y b => exact ih (Nat.succ.inj h) _

theorem moments_eq (h : a.length = b.length) :
    moments a b = ⟨coscatter a b, scatter a, scatter b⟩ :=
  foldl_moments _ _ h _

theorem rowCorrelation?_eq (h : a.length = b.length) (hne : a ≠ []) :
    rowCorrelation? a b =
      if Scalar.lt Scalar.zero (scatter a * scatter b).sqrt &&
          (scatter a * scatter b).sqrt.isFinite
      then some (coscatter a b / (scatter a * scatter b).sqrt) else none := by
  rw [rowCorrelation?, moments_eq h, if_neg (by simpa using hne)]

section Bounds

variable (hf : ∀ x ∈ row, x.isFinite = true)

include hf

theorem mean_within (hne : row ≠ []) : Within 182 (mean row) := by
  have hsum : Within 182 (Scalar.sum (row.map toDouble)) := by
    refine (within_vanishing 182 true).foldl (b := 128) (fun x hx => ?_) (by decide) (by decide)
    obtain ⟨y, hy, rfl⟩ := List.mem_map.mp hx
    exact within_widen (hf y hy)
  obtain ⟨s, hs, hone⟩ := Information.one_le_count (List.length_pos_iff.mpr hne)
  exact hsum.div_le (by decide) hs hone

theorem deviations_within : ∀ d ∈ deviations row, Within 183 d := by
  intro d hd
  obtain ⟨x, hx, rfl⟩ := List.mem_map.mp hd
  exact (within_widen (hf x hx)).sub (mean_within hf (List.ne_nil_of_mem hx)) (by decide) le_rfl
    (by decide)

/-- How far an entry is from the mean, in units and rounded. -/
def deviationRank (row : List Single) (x : Single) : Nat :=
  double.nearest (x.toDouble.amount - (mean row).amount).natAbs 1

theorem square_hasRank {x : Single} (hx : x ∈ row) :
    ((x.toDouble - mean row) * (x.toDouble - mean row)).HasRank (double.nearest
      (double.units (deviationRank row x) * double.units (deviationRank row x)) double.one) := by
  have hmean := (mean_within hf (List.ne_nil_of_mem hx)).isFinite (by decide)
  have hentry := (within_widen (hf x hx)).isFinite (by decide)
  have habs := abs_sub_eq hentry hmean
  have hrank : (x.toDouble - mean row).abs.HasRank (deviationRank row x) := by
    rw [habs]
    exact hasRank_atRank (double.nearest_le_top _ _)
  obtain ⟨r, hr, hle⟩ := deviations_within hf _ (List.mem_map_of_mem hx)
  rw [hr.unique hrank] at hle
  exact mul_self_of_lt hrank (lt_of_le_of_lt hle (FloatFormat.power_lt_top (by decide)))

end Bounds

theorem squares_within {ds : List Double} (h : ∀ d ∈ ds, Within 183 d) :
    ∀ z ∈ squares ds, Within 366 z := by
  intro z hz
  obtain ⟨d, hd, rfl⟩ := List.mem_map.mp hz
  exact ((h d hd).mul (h d hd) (by decide)).mono (by decide)

theorem products_within {ds es : List Double} (hd : ∀ d ∈ ds, Within 183 d)
    (he : ∀ e ∈ es, Within 183 e) : ∀ z ∈ products ds es, Within 366 z := by
  intro z hz
  obtain ⟨⟨d, e⟩, hmem, rfl⟩ := List.mem_map.mp hz
  obtain ⟨hdm, hem⟩ := List.of_mem_zip hmem
  exact ((hd d hdm).mul (he e hem) (by decide)).mono (by decide)

theorem squares_unsigned (ds : List Double) : ∀ z ∈ squares ds, z.Unsigned := by
  intro z hz
  obtain ⟨d, -, rfl⟩ := List.mem_map.mp hz
  exact mul_self_unsigned d

theorem scatter_within (hf : ∀ x ∈ row, x.isFinite = true) : Within 420 (scatter row) :=
  (within_vanishing 420 false).foldl (squares_within (deviations_within hf)) (by decide)
    (by decide)

theorem coscatter_within (ha : ∀ x ∈ a, x.isFinite = true) (hb : ∀ y ∈ b, y.isFinite = true) :
    Within 420 (coscatter a b) :=
  (within_vanishing 420 false).foldl
    (products_within (deviations_within ha) (deviations_within hb)) (by decide) (by decide)

theorem amount_of_eq {x c : Single} (hx : x.isFinite = true) (hc : c.isFinite = true)
    (h : x.eq c = true) : x.toDouble.amount = c.toDouble.amount := by
  rw [amount_widen hx, amount_widen hc,
    (eq_iff_amount (isNaN_of_isFinite hx) (isNaN_of_isFinite hc)).mp h]

theorem amount_significand {x : Single} (hx : x.isFinite = true) :
    ∃ q shift, x.toDouble.amount.natAbs = q * 2 ^ shift ∧ q < 2 ^ 24 := by
  obtain ⟨q, hu, hq⟩ := single.units_significand x.rank
  refine ⟨q, single.step x.rank + (double.scale - single.scale), ?_, hq⟩
  rw [amount_widen hx, Int.natAbs_mul, natAbs_amount, Int.natAbs_natCast, hu, grain, Nat.pow_add,
    Nat.mul_assoc]

theorem mean_of_constant {c : Single} (hf : ∀ x ∈ row, x.isFinite = true)
    (hc : ∀ x ∈ row, x.eq c = true) (hlen : row.length ≤ 2 ^ 29) (hmem : c ∈ row) :
    (mean row).amount = c.toDouble.amount := by
  have hcopies : ∀ y ∈ row.map toDouble, Within 128 y ∧ y.amount = c.toDouble.amount := by
    intro y hy
    obtain ⟨x, hx, rfl⟩ := List.mem_map.mp hy
    exact ⟨within_widen (hf x hx), amount_of_eq (hf x hx) (hf c hmem) (hc x hx)⟩
  obtain ⟨q, shift, hbits, hq⟩ := amount_significand (hf c hmem)
  have hfew : (0 + (row.map toDouble).length) * q < 2 ^ 53 := by
    rw [Nat.zero_add, List.length_map]
    calc row.length * q ≤ 2 ^ 29 * q := Nat.mul_le_mul_right q hlen
      _ < 2 ^ 29 * 2 ^ 24 := Nat.mul_lt_mul_of_pos_left hq (by decide)
      _ = 2 ^ 53 := by decide
  have hstart : (negZero : Double).amount = (0 : Nat) * c.toDouble.amount := by
    rw [negZero, amount_atRank _ (Nat.zero_le _), signedUnits_eq fun _ => rfl, double.units_zero,
      Int.natCast_zero, Int.zero_mul]
  have hsum : (Scalar.sum (row.map toDouble)).amount = row.length * c.toDouble.amount := by
    have h := amount_foldl (within_vanishing 182 true) hstart hcopies hbits hfew (by decide)
      (by decide)
    rwa [Nat.zero_add, List.length_map] at h
  have hfin : (Scalar.sum (row.map toDouble)).isFinite = true :=
    ((within_vanishing 182 true).foldl (fun y hy => (hcopies y hy).1) (by decide)
      (by decide)).isFinite (by decide)
  exact amount_mean hfin hsum (List.length_pos_of_mem hmem) (lt_of_le_of_lt hlen (by decide))

theorem scatter_of_constant {c : Single} (hf : ∀ x ∈ row, x.isFinite = true)
    (hc : ∀ x ∈ row, x.eq c = true) (hlen : row.length ≤ 2 ^ 29) (hmem : c ∈ row) :
    (scatter row).HasRank 0 := by
  have hmean := mean_of_constant hf hc hlen hmem
  refine (Unsigned.foldl_vanishes_iff hasRank_zero.unsigned (squares_unsigned _)).mpr
    ⟨hasRank_zero, fun z hz => ?_⟩
  obtain ⟨d, hd, rfl⟩ := List.mem_map.mp hz
  obtain ⟨x, hx, rfl⟩ := List.mem_map.mp hd
  have hsquare := square_hasRank hf hx
  have hamount := amount_of_eq (hf x hx) (hf c hmem) (hc x hx)
  rwa [deviationRank, hmean, hamount, Int.sub_self, Int.natAbs_zero,
    double.nearest_zero Nat.one_pos, double.units_zero, double.nearest_zero (one_pos _)] at hsquare

theorem far_of_differ {x y : Single} (hf : ∀ x ∈ row, x.isFinite = true) (hx : x ∈ row)
    (hy : y ∈ row) (hxy : x.eq y = false) : ∃ w ∈ row, bit 924 ≤ deviationRank row w := by
  have hdiffer : 0 < (x.amount - y.amount).natAbs := by
    refine Int.natAbs_pos.mpr (sub_ne_zero.mpr fun h => ?_)
    rw [(eq_iff_amount (isNaN_of_isFinite (hf x hx)) (isNaN_of_isFinite (hf y hy))).mpr h] at hxy
    cases hxy
  obtain ⟨half, hhalf, hgrain⟩ : ∃ half, 2 ^ 924 = half ∧ grain = half + half :=
    ⟨_, rfl, FloatFormat.grain_halves (by decide)⟩
  have hapart : half + half ≤ (x.toDouble.amount - y.toDouble.amount).natAbs := by
    rw [amount_widen (hf x hx), amount_widen (hf y hy), ← Int.sub_mul, Int.natAbs_mul,
      Int.natAbs_natCast, ← hgrain]
    exact Nat.le_mul_of_pos_left _ hdiffer
  by_cases hnear : half ≤ (x.toDouble.amount - (mean row).amount).natAbs
  · exact ⟨x, hx, FloatFormat.bit_le_nearest (hhalf.le.trans hnear) (by decide)⟩
  · refine ⟨y, hy, FloatFormat.bit_le_nearest (hhalf.le.trans ?_) (by decide)⟩
    omega

/-- The squares of a row that varies add up to a number of an ordinary size. -/
theorem scatter_of_varies (h : Varies row) :
    ∃ r, (scatter row).HasRank r ∧ bit 774 ≤ r ∧ r ≤ double.power 420 := by
  obtain ⟨hf, x, hx, y, hy, hxy⟩ := h
  obtain ⟨w, hw, hfar⟩ := far_of_differ hf hx hy hxy
  have hlarge := FloatFormat.bit_le_product (k := 774) hfar hfar (by decide) (by decide)
  have hsquare := square_hasRank hf hw
  have hranks : List.Forall₂ HasRank (squares (deviations row))
      ((squares (deviations row)).map rank) := by
    refine List.forall₂_map_right_iff.mpr (List.forall₂_same.mpr fun z hz => ?_)
    obtain ⟨r, hr⟩ := (squares_unsigned _ z hz).hasRank
      (squares_within (deviations_within hf) z hz).isNaN
    exact hr.rank_eq.symm ▸ hr
  have hscatter : (scatter row).HasRank (double.tally 0 ((squares (deviations row)).map rank)) :=
    hasRank_zero.foldl hranks
  have hmem : double.nearest (double.units (deviationRank row w)
      * double.units (deviationRank row w)) double.one
        ∈ (squares (deviations row)).map rank := by
    rw [← hsquare.rank_eq]
    exact List.mem_map_of_mem (List.mem_map_of_mem (List.mem_map_of_mem hw))
  refine ⟨_, hscatter, le_trans hlarge (double.mem_le_tally hmem (double.nearest_le_top _ _)), ?_⟩
  rw [← hscatter.rank_eq]
  exact (within_iff.mp (scatter_within hf)).2

theorem scale_hasRank {x y : Double} {r s : Nat} (hx : x.HasRank r) (hy : y.HasRank s)
    (hr : bit 774 ≤ r) (hs : bit 774 ≤ s) (hxw : Within 420 x) (hyw : Within 420 y) :
    ∃ q, (x * y).sqrt.HasRank q ∧ bit 774 ≤ q ∧ q ≤ double.power 420 := by
  have hrt : r < double.top := hx.lt_top hxw (by decide)
  have hst : s < double.top := hy.lt_top hyw (by decide)
  have hlow : bit 474 ≤ double.nearest (double.units r * double.units s) double.one :=
    FloatFormat.bit_le_product hr hs (by decide) (by decide)
  have hproduct : (x * y).HasRank
      (double.nearest (double.units r * double.units s) double.one) := by
    rw [hx.eq_atRank (FloatFormat.pos_of_bit_le hr), hy.eq_atRank (FloatFormat.pos_of_bit_le hs),
      mul_atRank hrt hst]
    exact hasRank_atRank (double.nearest_le_top _ _)
  have hhigh := (within_iff.mp (hxw.mul hyw (by decide))).2
  rw [hproduct.rank_eq] at hhigh
  have hfinite := lt_of_le_of_lt hhigh (FloatFormat.power_lt_top (by decide))
  exact ⟨_, hproduct.sqrt_of_pos (FloatFormat.pos_of_bit_le hlow) hfinite,
    FloatFormat.bit_le_root hlow (by decide) (by decide),
    FloatFormat.root_le_power hhigh (by decide)⟩

theorem rowCorrelation?_of_varies (hl : a.length = b.length) (ha : Varies a) (hb : Varies b) :
    ∃ rho, rowCorrelation? a b = some rho ∧ Within 720 rho := by
  obtain ⟨r, hr, hrlow, -⟩ := scatter_of_varies ha
  obtain ⟨s, hs, hslow, -⟩ := scatter_of_varies hb
  obtain ⟨q, hq, hlow, hhigh⟩ :=
    scale_hasRank hr hs hrlow hslow (scatter_within ha.1) (scatter_within hb.1)
  have hpos := FloatFormat.pos_of_bit_le hlow
  have htop := lt_of_le_of_lt hhigh (FloatFormat.power_lt_top (show 420 ≤ 1023 by decide))
  have hne : a ≠ [] := by
    obtain ⟨-, x, hx, -⟩ := ha
    exact List.ne_nil_of_mem hx
  have hlt : Scalar.lt Scalar.zero (scatter a * scatter b).sqrt = true :=
    (hasRank_zero.lt_eq hq).trans (decide_eq_true hpos)
  have hfin : (scatter a * scatter b).sqrt.isFinite = true := by
    rw [hq.isFinite, decide_eq_true htop]
  obtain ⟨c, hc, hle⟩ := coscatter_within ha.1 hb.1
  have hctop := lt_of_le_of_lt hle (FloatFormat.power_lt_top (show 420 ≤ 1023 by decide))
  refine ⟨_, ?_, _, abs_div_hasRank hc hctop hq hpos htop,
    FloatFormat.quotient_le_power hle hlow (by decide) (by decide)⟩
  rw [rowCorrelation?_eq hl hne, hlt, hfin]
  rfl

theorem varies_of_rowCorrelation {rho : Double} (hl : a.length = b.length)
    (hlen : a.length ≤ 2 ^ 29) (h : rowCorrelation? a b = some rho) : Varies a := by
  obtain ⟨hf, -⟩ := isFinite_of_rowCorrelation hl h
  have hne : a ≠ [] := by
    rintro rfl
    cases h
  by_contra hconstant
  have hequal : ∀ x ∈ a, x.eq (a.head hne) = true := by
    intro x hx
    by_contra hxy
    exact hconstant ⟨hf, x, hx, _, List.head_mem hne, Bool.eq_false_iff.mpr hxy⟩
  have hscatter := scatter_of_constant hf hequal hlen (List.head_mem hne)
  rw [rowCorrelation?_eq hl hne] at h
  split at h
  · rename_i hscale
    rw [Bool.and_eq_true] at hscale
    obtain ⟨-, hother⟩ := isFinite_of_mul (isFinite_of_sqrt hscale.2)
    have hzero : (scatter a * scatter b).HasRank 0 := position_zero_mul hother hscatter
    have hlt := hscale.1.symm.trans (hasRank_zero.lt_eq hzero.sqrt_zero)
    simp at hlt
  · cases h

theorem rowCorrelation?_isSome_iff (hl : a.length = b.length) (hlen : a.length ≤ 2 ^ 29) :
    (rowCorrelation? a b).isSome = true ↔ Varies a ∧ Varies b := by
  constructor
  · intro h
    obtain ⟨rho, hrho⟩ := Option.isSome_iff_exists.mp h
    exact ⟨varies_of_rowCorrelation hl hlen hrho,
      varies_of_rowCorrelation hl.symm (hl ▸ hlen) (rowCorrelation?_comm hl ▸ hrho)⟩
  · rintro ⟨ha, hb⟩
    obtain ⟨rho, hrho, -⟩ := rowCorrelation?_of_varies hl ha hb
    rw [hrho]
    rfl

/-- The pairs of rows that vary in both outputs. -/
def varyingRows (a b : Matrix Single) : List (List Single × List Single) :=
  (a.rows.zip b.rows).filter fun e => Varies e.1 ∧ Varies e.2

theorem mem_zip_of_varyingRows {a b : Matrix Single} {e : List Single × List Single}
    (h : e ∈ varyingRows a b) : e ∈ a.rows.zip b.rows :=
  List.mem_of_mem_filter h

def firstVarying (a b : Matrix Single) : Matrix Single where
  width := a.width
  rows := (varyingRows a b).map Prod.fst
  length_row := by
    intro row hrow
    obtain ⟨e, he, rfl⟩ := List.mem_map.mp hrow
    exact a.length_row _ (List.of_mem_zip (mem_zip_of_varyingRows he)).1

def secondVarying (a b : Matrix Single) : Matrix Single where
  width := b.width
  rows := (varyingRows a b).map Prod.snd
  length_row := by
    intro row hrow
    obtain ⟨e, he, rfl⟩ := List.mem_map.mp hrow
    exact b.length_row _ (List.of_mem_zip (mem_zip_of_varyingRows he)).2

section Outputs

variable {a b : Matrix Single} (hsize : a.size = b.size) (hwidth : a.width ≤ 2 ^ 29)

include hsize

theorem length_eq_of_mem_zip {e : List Single × List Single} (he : e ∈ a.rows.zip b.rows) :
    e.1.length = e.2.length := by
  obtain ⟨ha, hb⟩ := List.of_mem_zip he
  rw [a.length_row _ ha, b.length_row _ hb]
  exact congrArg Prod.snd hsize

theorem size_varying : (firstVarying a b).size = (secondVarying a b).size := by
  have hwidth : a.width = b.width := congrArg Prod.snd hsize
  simp only [Matrix.size, Matrix.height, firstVarying, secondVarying, List.length_map, hwidth]

include hwidth

theorem isSome_rowCorrelation?_iff : ∀ e ∈ a.rows.zip b.rows,
    ((rowCorrelation? e.1 e.2).isSome = true ↔ Varies e.1 ∧ Varies e.2) := by
  intro e he
  refine rowCorrelation?_isSome_iff (length_eq_of_mem_zip hsize he) ?_
  rwa [a.length_row _ (List.of_mem_zip he).1]

theorem within_of_mem_rowCorrelations : ∀ rho ∈ rowCorrelations a b, Within 720 rho := by
  intro rho hrho
  obtain ⟨e, he, hsome⟩ := List.mem_filterMap.mp hrho
  have hused := isSome_rowCorrelation?_iff hsize hwidth e he
  obtain ⟨hfirst, hsecond⟩ := hused.mp (by rw [hsome]; rfl)
  obtain ⟨rho', hrho', hw⟩ :=
    rowCorrelation?_of_varies (length_eq_of_mem_zip hsize he) hfirst hsecond
  rw [hsome, Option.some.injEq] at hrho'
  exact hrho' ▸ hw

theorem rowCorrelations_eq :
    rowCorrelations a b = (varyingRows a b).filterMap fun e => rowCorrelation? e.1 e.2 := by
  rw [varyingRows, List.filterMap_filter, rowCorrelations]
  refine List.filterMap_congr fun e he => ?_
  by_cases hv : Varies e.1 ∧ Varies e.2
  · rw [if_pos (decide_eq_true hv)]
  · rw [if_neg (by simpa using hv), ← Option.not_isSome_iff_eq_none,
      isSome_rowCorrelation?_iff hsize hwidth e he]
    exact hv

theorem rowCorrelations_varying :
    rowCorrelations (firstVarying a b) (secondVarying a b) = rowCorrelations a b := by
  rw [rowCorrelations_eq hsize hwidth, rowCorrelations, firstVarying, secondVarying, List.zip_map',
    List.map_id']

theorem rowCorrelations_eq_nil_iff : rowCorrelations a b = [] ↔ varyingRows a b = [] := by
  rw [rowCorrelations_eq hsize hwidth, List.filterMap_eq_nil_iff, List.eq_nil_iff_forall_not_mem]
  refine forall_congr' fun e => forall_congr' fun he => iff_of_false (fun hnone => ?_) id
  have hsome := (isSome_rowCorrelation?_iff hsize hwidth e (mem_zip_of_varyingRows he)).mpr
    (of_decide_eq_true (List.mem_filter.mp he).2)
  rw [hnone] at hsome
  cases hsome

end Outputs

theorem correlation_congr {a b a' b' : Matrix Single} (hsize : a.size = b.size)
    (hsize' : a'.size = b'.size) (h : rowCorrelations a b = rowCorrelations a' b') :
    correlation a b = correlation a' b' := by
  rw [correlation, correlation, if_pos hsize, if_pos hsize', h]

theorem correlation_within {a b : Matrix Single} {rho : Double}
    (hw : ∀ r ∈ rowCorrelations a b, Within 720 r) (h : correlation a b = .ok rho) :
    Within 774 rho := by
  rw [correlation, if_pos (size_of_correlation h)] at h
  cases hr : rowCorrelations a b with
  | nil =>
    rw [hr] at h
    cases h
  | cons r rs =>
    rw [hr] at h hw
    cases h
    obtain ⟨s, hs, hone⟩ := Information.one_le_count (Nat.succ_pos rs.length)
    exact ((within_vanishing 774 false).foldl hw (by decide) (by decide)).div_le (by decide) hs hone

/-- A correlation of two outputs of one size, with no more columns than a mean is exact for, uses a
pair of rows exactly if both vary. Without such a pair there is none; otherwise it is finite, and it
is the correlation of the outputs that are left when all other rows are taken out. -/
theorem correlation_of_varying (a b : Matrix Single) (hsize : a.size = b.size)
    (hwidth : a.width ≤ 2 ^ 29) :
    (∀ e ∈ a.rows.zip b.rows,
      ((rowCorrelation? e.1 e.2).isSome = true ↔ Varies e.1 ∧ Varies e.2)) ∧
    (varyingRows a b = [] → correlation a b = .error (.statistics .constantOutputs)) ∧
    (varyingRows a b ≠ [] → ∃ rho, correlation a b = .ok rho ∧ rho.isFinite = true ∧
      correlation (firstVarying a b) (secondVarying a b) = .ok rho) := by
  have hused := isSome_rowCorrelation?_iff hsize hwidth
  have hnil := rowCorrelations_eq_nil_iff hsize hwidth
  have hsame := correlation_congr (size_varying hsize) hsize
    (rowCorrelations_varying hsize hwidth)
  refine ⟨hused, fun hnone => ?_, fun hsome => ?_⟩
  · rw [correlation, if_pos hsize, hnil.mpr hnone]
  · rcases correlation_decided hsize with ⟨hr, -⟩ | ⟨-, rho, hrho⟩
    · exact absurd (hnil.mp hr) hsome
    · have hwithin := correlation_within (within_of_mem_rowCorrelations hsize hwidth) hrho
      exact ⟨rho, hrho, hwithin.isFinite (by decide), hsame.trans hrho⟩

def oddRows : Matrix Single :=
  .ofEntries 4 2 [.zero, .negZero, .zero, .atRank false 1, .atRank false (single.top - 1),
    .atRank true (single.top - 1), .nan, .ofNat 1] rfl

def risingRows : Matrix Single :=
  .ofEntries 4 2 [.ofNat 1, .ofNat 2, .ofNat 1, .ofNat 2, .ofNat 1, .ofNat 2, .ofNat 1, .ofNat 2]
    rfl

theorem correlation_of_varying_odd :
    (varyingRows oddRows risingRows).length = 2 ∧
      ∃ rho, correlation oddRows risingRows = .ok rho ∧ rho.isFinite = true ∧
        correlation (firstVarying oddRows risingRows) (secondVarying oddRows risingRows)
          = .ok rho := by
  have htwo : (varyingRows oddRows risingRows).length = 2 := by decide +kernel
  refine ⟨htwo, (correlation_of_varying oddRows risingRows rfl (by decide)).2.2 ?_⟩
  exact List.ne_nil_of_length_pos (by omega)

end Federation.Statistics
