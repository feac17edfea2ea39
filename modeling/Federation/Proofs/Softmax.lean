import Federation.Probe
import Federation.Proofs.Float.Exponential
import Federation.Proofs.Probes

/-!
# A softmax that neither overflows nor vanishes

The greatest logit is taken off before the exponential, so every exponential is a number from zero
to one, and that of the greatest logit is one. Their sum is not below any of them, and it stops
growing where a lane is too large for another one to show: it is finite for any number of columns.
So the quotients are numbers from zero to one, at least one is positive, and rounding leaves them in
the order of the logits. Nothing but monotonicity and two values is asked of the exponential.
-/

set_option autoImplicit false

namespace Federation

namespace Binary

variable {f : FloatFormat} {x y z : Binary f} {a b c m t : Nat} {xs ys : List (Binary f)}

def UpTo (t : Nat) (x : Binary f) : Prop := ∃ r, x.HasRank r ∧ r ≤ t

/-- A bounded sum that is not below any of its members. -/
structure Covers (t : Nat) (z : Binary f) (xs : List (Binary f)) : Prop where
  upTo : z.UpTo t
  rank_le : ∀ x ∈ xs, x.rank ≤ z.rank

theorem upTo_zero (t : Nat) : (zero : Binary f).UpTo t := ⟨0, hasRank_zero, Nat.zero_le t⟩

theorem UpTo.hasRank (hx : x.UpTo t) : x.HasRank x.rank ∧ x.rank ≤ t := by
  obtain ⟨r, hr, hle⟩ := hx
  rw [hr.rank_eq]
  exact ⟨hr, hle⟩

theorem UpTo.add (hx : x.UpTo a) (hy : y.UpTo b) (h : f.plus a b ≤ c) : (x + y).UpTo c := by
  obtain ⟨r, hr, hra⟩ := hx
  obtain ⟨s, hs, hsb⟩ := hy
  exact ⟨_, hr.add hs, le_trans (f.plus_mono hra hsb) h⟩

theorem UpTo.rank_le_add (hx : x.UpTo a) (hy : y.UpTo b) :
    x.rank ≤ (x + y).rank ∧ y.rank ≤ (x + y).rank := by
  obtain ⟨hr, -⟩ := hx.hasRank
  obtain ⟨hs, -⟩ := hy.hasRank
  rw [(hr.add hs).rank_eq]
  exact ⟨f.le_plus_left _ hr.le_top, f.le_plus_right _ hs.le_top⟩

theorem UpTo.foldl (hx : x.UpTo m) (hxs : ∀ y ∈ xs, y.UpTo t) (hm : f.plus m t ≤ m) :
    Covers m (xs.foldl (· + ·) x) (x :: xs) := by
  obtain ⟨hrank, hle⟩ := hx.hasRank
  have hranks : List.Forall₂ HasRank xs (xs.map rank) :=
    List.forall₂_map_right_iff.mpr (List.forall₂_same.mpr fun y hy => (hxs y hy).hasRank.1)
  have hsum := hrank.foldl hranks
  have hbound : f.tally x.rank (xs.map rank) ≤ m :=
    f.tally_le_of_stall hm hle (List.forall_mem_map.mpr fun y hy => (hxs y hy).hasRank.2)
  refine ⟨⟨_, hsum, hbound⟩, ?_⟩
  rw [hsum.rank_eq, List.forall_mem_cons]
  exact ⟨f.le_tally _ (rank_le_top x),
    fun y hy => f.mem_le_tally (List.mem_map_of_mem hy) (rank_le_top y)⟩

theorem upTo_zipWith (hxs : ∀ x ∈ xs, x.UpTo a) (hys : ∀ y ∈ ys, y.UpTo b)
    (h : f.plus a b ≤ c) : ∀ z ∈ List.zipWith (· + ·) xs ys, z.UpTo c := by
  rw [forall_mem_zipWith]
  intro e he
  obtain ⟨hx, hy⟩ := List.of_mem_zip he
  exact (hxs _ hx).add (hys _ hy) h

theorem rank_le_of_zipWith {s : Nat} (hl : xs.length = ys.length) (hxs : ∀ x ∈ xs, x.UpTo a)
    (hys : ∀ y ∈ ys, y.UpTo b) (h : ∀ z ∈ List.zipWith (· + ·) xs ys, z.rank ≤ s) :
    (∀ x ∈ xs, x.rank ≤ s) ∧ ∀ y ∈ ys, y.rank ≤ s := by
  induction xs generalizing ys with
  | nil =>
    rw [List.length_eq_zero_iff.mp hl.symm]
    simp
  | cons x xs ih =>
    obtain ⟨y, ys, rfl⟩ := List.exists_cons_of_length_eq_add_one hl.symm
    rw [List.forall_mem_cons] at hxs hys
    rw [List.zipWith_cons_cons, List.forall_mem_cons] at h
    obtain ⟨hlx, hly⟩ := hxs.1.rank_le_add hys.1
    obtain ⟨hx, hy⟩ := ih (Nat.succ.inj hl) hxs.2 hys.2 h.2
    rw [List.forall_mem_cons, List.forall_mem_cons]
    exact ⟨⟨le_trans hlx h.1, hx⟩, le_trans hly h.1, hy⟩

end Binary

namespace Softmax

open Binary
open FloatFormat (single)

namespace Lanes

def toList (p : Lanes) : List Single := [p.a0, p.a1, p.a2, p.a3, p.a4, p.a5, p.a6, p.a7]

theorem total_eq (p : Lanes) :
    p.total = (List.zipWith (· + ·) (p.toList.take 4) (p.toList.drop 4)).foldl (· + ·) .zero := rfl

theorem stalls : single.plus (single.power 24) (single.power 0) ≤ single.power 24 ∧
    single.plus (single.power 24) (single.power 24) ≤ single.power 25 ∧
    single.plus (single.power 49) (single.power 25) ≤ single.power 49 ∧
    single.plus (single.power 49) (single.power 0) ≤ single.power 49 := by
  decide

theorem total_covers {p : Lanes} (hp : ∀ a ∈ p.toList, a.UpTo (single.power 24)) :
    Covers (single.power 49) p.total p.toList := by
  obtain ⟨-, hpair, hall, -⟩ := stalls
  have hfront : ∀ a ∈ p.toList.take 4, a.UpTo (single.power 24) :=
    fun a ha => hp a (List.mem_of_mem_take ha)
  have hback : ∀ a ∈ p.toList.drop 4, a.UpTo (single.power 24) :=
    fun a ha => hp a (List.mem_of_mem_drop ha)
  obtain ⟨hsum, hle⟩ := (upTo_zero _).foldl (upTo_zipWith hfront hback hpair) hall
  obtain ⟨hf, hb⟩ := rank_le_of_zipWith (by rfl) hfront hback (List.forall_mem_cons.mp hle).2
  have hmem := List.forall_mem_append.mpr ⟨hf, hb⟩
  rw [List.take_append_drop] at hmem
  rw [total_eq]
  exact ⟨hsum, hmem⟩

end Lanes

theorem laneSum_covers {p : Lanes} {xs : List Single}
    (hp : ∀ a ∈ p.toList, a.UpTo (single.power 24)) (hxs : ∀ x ∈ xs, x.UpTo (single.power 0)) :
    Covers (single.power 49) (laneSum p xs) (p.toList ++ xs) := by
  obtain ⟨hlane, -, -, hrest⟩ := Lanes.stalls
  induction p, xs using laneSum.induct with
  | case1 p x0 x1 x2 x3 x4 x5 x6 x7 rest ih =>
    -- a full block goes into the lanes, each of which covers what was in it and what is added
    have hsplit : x0 :: x1 :: x2 :: x3 :: x4 :: x5 :: x6 :: x7 :: rest
        = [x0, x1, x2, x3, x4, x5, x6, x7] ++ rest := rfl
    rw [hsplit, List.forall_mem_append] at hxs
    obtain ⟨hsum, hle⟩ := ih (upTo_zipWith hp hxs.1 hlane) hxs.2
    rw [List.forall_mem_append] at hle
    obtain ⟨hlanes, hblock⟩ := rank_le_of_zipWith (by rfl) hp hxs.1 hle.1
    refine ⟨hsum, ?_⟩
    rw [hsplit, List.forall_mem_append, List.forall_mem_append]
    exact ⟨hlanes, hblock, hle.2⟩
  | case2 p rest hshort =>
    obtain ⟨htotal, hlanes⟩ := Lanes.total_covers hp
    obtain ⟨hsum, hle⟩ := htotal.foldl hxs hrest
    rw [List.forall_mem_cons] at hle
    rw [laneSum]
    · refine ⟨hsum, ?_⟩
      rw [List.forall_mem_append]
      exact ⟨fun a ha => le_trans (hlanes a ha) hle.1, hle.2⟩
    · exact hshort

variable {exp : Single → Single} {row : List Single}

/-- All that a softmax asks of the exponential function. -/
structure IsExponential (exp : Single → Single) : Prop where
  mono : ∀ x y : Single, x.le y = true → (exp x).le (exp y) = true
  of_zero : exp .zero = Scalar.one
  of_negInfinity : exp (.infinity true) = .zero

theorem exp_isExponential : IsExponential Binary.exp where
  mono _ _ := exp_mono
  of_zero := exp_zero
  of_negInfinity := exp_infinity true

def exponentialsBy (exp : Single → Single) (row : List Single) : List Single :=
  row.map fun x => exp (x - greatest row)

def sumBy (exp : Single → Single) (row : List Single) : Single :=
  laneSum .zero (exponentialsBy exp row)

def weighBy (exp : Single → Single) (row : List Single) : List Single :=
  (exponentialsBy exp row).map (· / sumBy exp row)

theorem weigh_eq (row : List Single) : weigh row = weighBy Binary.exp row := rfl

/-- Some entry is finite, and none is invalid or plus infinity; minus infinity may occur. -/
structure Tame (row : List Single) : Prop where
  isNaN : ∀ x ∈ row, x.isNaN = false
  ne_infinity : ∀ x ∈ row, x ≠ .infinity false
  exists_finite : ∃ x ∈ row, x.isFinite = true

/-- The outputs are shares of a finite sum that is not below one, numbers from zero to one in the
order of the logits. -/
structure Stable (exp : Single → Single) (logits outputs : List Single) : Prop where
  divided : outputs = weighBy exp logits
  sum_isFinite : (sumBy exp logits).isFinite = true
  one_le_sum : Binary.le Scalar.one (sumBy exp logits) = true
  length : outputs.length = logits.length
  isNaN : ∀ w ∈ outputs, w.isNaN = false
  zero_le : ∀ w ∈ outputs, Binary.le .zero w = true
  le_one : ∀ w ∈ outputs, w.le Scalar.one = true
  exists_pos : ∃ w ∈ outputs, Binary.lt .zero w = true
  ordered : ∀ a ∈ logits.zip outputs, ∀ b ∈ logits.zip outputs,
    a.1.le b.1 = true → a.2.le b.2 = true

theorem Tame.greatest_spec (h : Tame row) : greatest row ∈ row ∧ (greatest row).isFinite = true ∧
    ∀ x ∈ row, x.le (greatest row) = true := by
  obtain ⟨hmem, hle⟩ := foldl_max_spec (x := .infinity true) rfl h.isNaN
  rw [List.forall_mem_cons] at hle
  obtain ⟨y, hy, hfy⟩ := h.exists_finite
  have hfin : (greatest row).isFinite = true := by
    rcases le_cases (hle.2 y hy) with rfl | htop | ⟨-, hfin, -⟩
    · cases hfy
    · rw [htop] at hmem
      rcases List.mem_cons.mp hmem with heq | hmem
      · cases heq
      · exact absurd rfl (h.ne_infinity _ hmem)
    · exact hfin
  refine ⟨?_, hfin, hle.2⟩
  rcases List.mem_cons.mp hmem with heq | hmem
  · rw [greatest, heq] at hfin
    cases hfin
  · exact hmem

theorem one_hasRank_single : (Scalar.one : Single).HasRank (single.power 0) := by
  show Binary.position _ = _
  decide

theorem IsExponential.upTo (he : IsExponential exp) {x m : Single} (hm : m.isFinite = true)
    (h : x.le m = true) : (exp (x - m)).UpTo (single.power 0) := by
  have hlow : Binary.le .zero (exp (x - m)) = true := by
    rw [← he.of_negInfinity]
    exact he.mono _ _ (infinity_le (sub_finite_isNaN (isNaN_of_le h).1 hm))
  have hhigh : (exp (x - m)).le Scalar.one = true := by
    rw [← he.of_zero, ← Binary.sub_self hm]
    exact he.mono _ _ (sub_mono hm h)
  obtain ⟨r, hr, -⟩ := hasRank_zero.of_le hlow
  rw [hr.le_eq one_hasRank_single, decide_eq_true_eq] at hhigh
  exact ⟨r, hr, hhigh⟩

theorem IsExponential.sumBy_hasRank (he : IsExponential exp) (h : Tame row) :
    ∃ s, (sumBy exp row).HasRank s ∧ single.power 0 ≤ s ∧ s ≤ single.power 49 := by
  obtain ⟨hmem, hfin, hle⟩ := h.greatest_spec
  have hes : ∀ e ∈ exponentialsBy exp row, e.UpTo (single.power 0) :=
    List.forall_mem_map.mpr fun x hx => he.upTo hfin (hle x hx)
  have hone : Scalar.one ∈ exponentialsBy exp row :=
    List.mem_map.mpr ⟨_, hmem, by rw [Binary.sub_self hfin, he.of_zero]⟩
  have hlanes : ∀ a ∈ Lanes.zero.toList, a.UpTo (single.power 24) := by
    intro a ha
    rw [List.eq_of_mem_replicate (show a ∈ List.replicate 8 .zero from ha)]
    exact upTo_zero _
  obtain ⟨⟨s, hs, hbound⟩, hcovers⟩ := laneSum_covers hlanes hes
  have hlow := hcovers _ (List.mem_append_right _ hone)
  rw [one_hasRank_single.rank_eq, hs.rank_eq] at hlow
  exact ⟨s, hs, hlow, hbound⟩

def share (s r : Nat) : Nat := single.nearest (single.units r * single.one) (single.units s)

section Share

variable {r r' s : Nat}

theorem bounds_single : single.power 49 < single.top ∧ 0 < single.power 0 ∧
    single.one ≤ single.units (single.power 0) ∧
    single.units (single.power 49) ≤ single.one * single.one := by
  decide

theorem share_mono (hs : single.power 0 ≤ s) (h : r ≤ r') : share s r ≤ share s r' := by
  have hpos := single.units_pos (Nat.lt_of_lt_of_le bounds_single.2.1 hs)
  exact single.nearest_mono hpos hpos
    (Nat.mul_le_mul_right _ (Nat.mul_le_mul_right _ (single.units_strictMono.monotone h)))

theorem share_le (hs : single.power 0 ≤ s) (hr : r ≤ single.power 0) :
    share s r ≤ single.power 0 := by
  obtain ⟨htop, hpos, hone, -⟩ := bounds_single
  have hmono := single.units_strictMono.monotone
  apply single.nearest_le (single.units_pos (Nat.lt_of_lt_of_le hpos hs)) (by decide)
  exact Nat.mul_le_mul (hmono hr) (le_trans hone (hmono hs))

theorem share_one_pos (hlow : single.power 0 ≤ s) (hhigh : s ≤ single.power 49) :
    0 < share s (single.power 0) := by
  obtain ⟨htop, hpos, hone, hsquare⟩ := bounds_single
  apply single.le_nearest (single.units_pos (Nat.lt_of_lt_of_le hpos hlow)) single.top_pos
  rw [single.units_one, Nat.one_mul]
  calc single.units s ≤ single.units (single.power 49) := single.units_strictMono.monotone hhigh
    _ ≤ single.one * single.one := hsquare
    _ ≤ single.units (single.power 0) * single.one := Nat.mul_le_mul_right _ hone

theorem div_hasRank {e z : Single} (he : e.HasRank r) (hr : r ≤ single.power 0) (hz : z.HasRank s)
    (hlow : single.power 0 ≤ s) (hhigh : s ≤ single.power 49) : (e / z).HasRank (share s r) := by
  obtain ⟨htop, hpos, -⟩ := bounds_single
  exact he.div (by omega) hz (by omega) (by omega)

end Share

theorem weighBy_eq (exp : Single → Single) (row : List Single) :
    weighBy exp row = row.map fun x => exp (x - greatest row) / sumBy exp row := List.map_map

theorem IsExponential.stable (he : IsExponential exp) (h : Tame row) :
    Stable exp row (weighBy exp row) := by
  obtain ⟨hmem, hfin, hle⟩ := h.greatest_spec
  obtain ⟨s, hs, hlow, hhigh⟩ := he.sumBy_hasRank h
  have hweight : ∀ w ∈ weighBy exp row, ∃ q, w.HasRank q ∧ q ≤ single.power 0 := by
    rw [weighBy_eq, List.forall_mem_map]
    intro x hx
    obtain ⟨r, hr, hone⟩ := he.upTo hfin (hle x hx)
    exact ⟨_, div_hasRank hr hone hs hlow hhigh, share_le hlow hone⟩
  refine { divided := rfl, sum_isFinite := ?finite, one_le_sum := ?sum, length := ?length,
           isNaN := ?number, zero_le := ?lower, le_one := ?upper, exists_pos := ?positive,
           ordered := ?ordered }
  case finite =>
    rw [hs.isFinite]
    exact decide_eq_true (Nat.lt_of_le_of_lt hhigh bounds_single.1)
  case sum =>
    rw [one_hasRank_single.le_eq hs]
    exact decide_eq_true hlow
  case length => rw [weighBy_eq, List.length_map]
  case number =>
    intro w hw
    obtain ⟨q, hq, -⟩ := hweight w hw
    exact hq.isNaN
  case lower =>
    intro w hw
    obtain ⟨q, hq, -⟩ := hweight w hw
    rw [hasRank_zero.le_eq hq]
    exact decide_eq_true (Nat.zero_le q)
  case upper =>
    intro w hw
    obtain ⟨q, hq, hone⟩ := hweight w hw
    rw [hq.le_eq one_hasRank_single]
    exact decide_eq_true hone
  case positive =>
    refine ⟨_, weighBy_eq exp row ▸ List.mem_map_of_mem hmem, ?_⟩
    rw [Binary.sub_self hfin, he.of_zero,
      hasRank_zero.lt_eq (div_hasRank one_hasRank_single le_rfl hs hlow hhigh)]
    exact decide_eq_true (share_one_pos hlow hhigh)
  case ordered =>
    rw [weighBy_eq, ← List.map_prod_left_eq_zip]
    simp only [List.forall_mem_map]
    intro x hx y hy hxy
    obtain ⟨r, hr, hrone⟩ := he.upTo hfin (hle x hx)
    obtain ⟨t, ht, htone⟩ := he.upTo hfin (hle y hy)
    have hexp := he.mono _ _ (sub_mono hfin hxy)
    rw [hr.le_eq ht, decide_eq_true_eq] at hexp
    rw [(div_hasRank hr hrone hs hlow hhigh).le_eq (div_hasRank ht htone hs hlow hhigh)]
    exact decide_eq_true (share_mono hlow hexp)

end Softmax

namespace Probe

def logits (p : Probe) (row : List Single) : List Single :=
  List.zipWith (· + ·) (products p.weights.width row p.weights.rows) p.bias

theorem forwardRow_of_softmax {p : Probe} (hp : p.activation = .softmax) (row : List Single) :
    p.forwardRow row = Softmax.weighBy Binary.exp (p.logits row) := by
  rw [forwardRow, hp]
  exact Softmax.weigh_eq _

/-- Every row of outputs of a probe with a softmax, whatever was loaded into it, is a stable softmax
of its logits if one of these is finite and none is invalid or plus infinity. Any other exponential
function would do as well. -/
theorem softmax_stable (p : Probe) (batch : Matrix Single) (hp : p.activation = .softmax)
    (hw : batch.width = p.inputs) :
    ∃ output, p.forward batch = .ok output ∧
      List.Forall₂ (fun row outputs => Softmax.Tame (p.logits row) →
        Softmax.Stable Binary.exp (p.logits row) outputs ∧
          ∀ exp, Softmax.IsExponential exp →
            Softmax.Stable exp (p.logits row) (Softmax.weighBy exp (p.logits row)))
        batch.rows output.rows := by
  obtain ⟨output, hf, -, hrows⟩ := forward_of_width hw
  refine ⟨output, hf, ?_⟩
  rw [hrows, List.forall₂_map_right_iff, List.forall₂_same]
  intro row _ htame
  rw [forwardRow_of_softmax hp row]
  exact ⟨Softmax.exp_isExponential.stable htame, fun exp he => he.stable htame⟩

def largest : Single := .ofBits 0x7f7fffff

def steep : Probe where
  activation := .softmax
  weights := ⟨3, [[largest, -largest, .infinity true]], by decide⟩
  bias := [.zero, .zero, .zero]
  length_bias := rfl

theorem softmax_stable_steep :
    steep.activation = .softmax ∧
      (Matrix.constant 1 1 (Scalar.one : Single)).width = steep.inputs ∧
      steep.logits [Scalar.one] = [largest, -largest, .infinity true] ∧
      -largest - largest = .infinity true ∧ Softmax.Tame (steep.logits [Scalar.one]) ∧
      ∃ output outputs, steep.forward (.constant 1 1 Scalar.one) = .ok output ∧
        output.rows = [outputs] ∧
        Softmax.Stable Binary.exp (steep.logits [Scalar.one]) outputs := by
  have htame : Softmax.Tame (steep.logits [Scalar.one]) := ⟨by decide, by decide, by decide⟩
  refine ⟨rfl, rfl, by decide, by decide, htame, ?_⟩
  obtain ⟨output, hf, hrows⟩ := softmax_stable steep (.constant 1 1 Scalar.one) rfl rfl
  obtain ⟨outputs, rest, hrow, hrest, heq⟩ := List.forall₂_cons_left_iff.mp
    (show List.Forall₂ _ [[Scalar.one]] output.rows from hrows)
  rw [List.forall₂_nil_left_iff.mp hrest] at heq
  exact ⟨output, outputs, hf, heq, (hrow htame).1⟩

end Probe

end Federation
