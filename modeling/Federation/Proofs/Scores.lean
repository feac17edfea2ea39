import Federation.Proofs.Float.Logarithm
import Federation.Proofs.Float.Places
import Federation.Proofs.Float.Quotients
import Federation.Proofs.Rounds
import Federation.Proofs.Pairs

/-!
# Scores by mutual information

The mutual information of two outputs is a number from zero to a ceiling below `2 ^ 10`, whatever
their correlation is: the argument of the logarithm is its floor, also for an invalid correlation,
or lies between the last digit of one and one. So all scores are finite, and the only thing that
can go wrong with outputs of one size is a pair without a row in which both vary.
-/

set_option autoImplicit false

namespace Federation

namespace Binary

open FloatFormat (double)

theorem clamp_position {f : FloatFormat} {x low high : Binary f} {a b : Int}
    (hx : x.isNaN = false) (hl : low.position = some a) (hh : high.position = some b)
    (hab : a ≤ b) : ∃ p, (x.clamp low high).position = some p ∧ a ≤ p ∧ p ≤ b := by
  cases hp : x.position with
  | none =>
    cases x with
    | nan => cases hx
    | number _ _ => cases hp
  | some p =>
    unfold clamp
    simp only [lt, compares, hp, hl, hh, decide_eq_true_eq]
    split
    · exact ⟨a, hl, le_rfl, hab⟩
    · split
      · exact ⟨b, hh, hab, le_rfl⟩
      · exact ⟨p, hp, by omega, by omega⟩

theorem within_of_position {x : Double} {p : Int} {e : Nat} (hx : x.position = some p)
    (h : p.natAbs ≤ double.power e) : Within e x := by
  cases x with
  | nan => cases hx
  | number negative rank =>
    refine within_iff.mpr ⟨rfl, ?_⟩
    have hp : (if negative then -(rank.val : Int) else rank.val) = p := Option.some.inj hx
    show rank.val ≤ double.power e
    split at hp <;> omega

theorem mul_hasRank {f : FloatFormat} {x y : Binary f} {r s : Nat} (hx : (-x).HasRank r)
    (hy : (-y).HasRank s) (hr : r < f.top) (hs : s < f.top) :
    (x * y).HasRank (f.nearest (f.units r * f.units s) f.one) := by
  cases x with
  | nan => cases hx
  | number n a =>
    cases y with
    | nan => cases hy
    | number m b =>
      obtain ⟨n', a', ha, rfl, hn⟩ := hasRank_iff.mp hx
      obtain ⟨m', b', hb, rfl, hm⟩ := hasRank_iff.mp hy
      cases ha
      cases hb
      have hprod : number n a * number m b
          = atRank (n != m) (f.nearest (f.units a.val * f.units b.val) f.one) := by
        rw [← atRank_val, ← atRank_val, mul_atRank hr hs]
      have hzero : f.nearest 0 f.one = 0 := f.nearest_zero (one_pos f)
      rw [hprod]
      refine hasRank_iff.mpr ⟨_, _, rfl, Nat.min_eq_left (f.nearest_le_top _ _), fun hne => ?_⟩
      cases n
      · rw [hn rfl, f.units_zero, Nat.zero_mul, hzero]
      · cases m
        · rw [hm rfl, f.units_zero, Nat.mul_zero, hzero]
        · cases hne

end Binary

namespace Statistics

open Binary
open FloatFormat (double)

def ceiling : Double := -half * logFloor.ln

/-- The floor is positive, its logarithm is below -64, and together with the factor before it this
gives no large number. -/
theorem bounds : (logFloor.ln.position = some (-(logFloor.ln.rank : Int)) ∧
      double.power 6 ≤ logFloor.ln.rank ∧ logFloor.ln.rank < double.top) ∧
    (zero : Double).lt logFloor = true ∧ half.rank < double.top ∧
    ceiling.rank ≤ double.power 10 := by
  decide +kernel

theorem clampedCorrelation_within {rho : Double} (h : rho.isNaN = false) :
    Within 0 (clampedCorrelation rho) := by
  have hone : (Scalar.one : Double).position = some (double.power 0 : Int) := one_hasRank
  have hneg : (-Scalar.one : Double).position = some (-(double.power 0 : Int)) := by
    rw [position_neg, hone]
    rfl
  obtain ⟨p, hp, hl, hh⟩ := clamp_position h hneg hone (by omega)
  exact within_of_position hp (by omega)

theorem unexplained_rank {rho : Double} (hc : Within 0 (clampedCorrelation rho))
    (hl : ¬(unexplained rho).lt logFloor = true) :
    ∃ rank, unexplained rho = atRank false rank ∧
      double.power 0 ≤ rank + 53 * double.binade ∧ rank ≤ double.power 0 := by
  have htop : double.power 0 < double.top := FloatFormat.power_lt_top (by decide)
  obtain ⟨hfin, hone⟩ := one_value
  obtain ⟨hsquare, hle⟩ := within_iff.mp (hc.mul hc (by decide))
  obtain ⟨s, hs⟩ := (mul_self_unsigned (clampedCorrelation rho)).hasRank hsquare
  rw [hs.rank_eq] at hle
  have hrounds := rounds_sub hfin (hs.isFinite_of_le hle (by decide))
  rcases Nat.lt_or_eq_of_le hle with hlt | heq
  · have hrest := units_lt_one hlt
    have hpos : (0 : ℚ) ≤ double.units s / double.one :=
      div_nonneg (Nat.cast_nonneg _) one_pos_rat.le
    rw [hone, hs.value_eq] at hrounds
    obtain ⟨digit, hplace, hunits⟩ : ∃ digit, digit + 53 * double.binade = double.power 0 ∧
        double.units digit * 2 ^ 53 = 1 * double.one := by
      refine ⟨(969 + 1) * double.binade, by decide, ?_⟩
      rw [double.units_binade_mul, show (969 + 53 + 1) * double.binade = double.power 0 by decide,
        FloatFormat.units_power, Nat.pow_zero]
    have hdigit : (atRank false digit : Double).HasRank digit := hasRank_atRank (by omega)
    have hvalue : (atRank false digit : Double).value = 1 / 2 ^ 53 := by
      rw [hdigit.value_eq, div_eq_div_iff one_pos_rat.ne' (by positivity)]
      exact_mod_cast hunits
    have hlow := hrounds.le_value (hvalue.trans_le (by linarith))
    have hhigh := hrounds.value_le (y := Scalar.one) (by rw [hone]; linarith)
    obtain ⟨rank, hrank, hle'⟩ :=
      hdigit.of_le ((value_le_iff_le hdigit.isNaN hrounds.isNaN).mp hlow)
    have hup := (value_le_iff_le hrounds.isNaN one_hasRank.isNaN).mp hhigh
    rw [hrank.le_eq one_hasRank, decide_eq_true_eq] at hup
    have hfar : 53 * double.binade < double.power 0 := by decide
    exact ⟨rank, hrank.eq_atRank (by omega), by omega, hup⟩
  · -- nothing is left of one
    have hfull : clampedCorrelation rho * clampedCorrelation rho = Scalar.one :=
      eq_of_position_pos hs (heq ▸ by decide) (hs.trans (heq ▸ one_hasRank.symm))
    rw [unexplained, hfull, Binary.sub_self hfin] at hl
    exact absurd bounds.2.1 hl

/-- The argument of the logarithm is the floor or lies between the last digit of one and one. -/
theorem argument_cases (rho : Double) : (unexplained rho).max logFloor = logFloor ∨
    ∃ rank, (unexplained rho).max logFloor = atRank false rank ∧
      double.power 0 ≤ rank + 53 * double.binade ∧ rank ≤ double.power 0 := by
  unfold Binary.max
  by_cases hn : (unexplained rho).isNaN = true
  · exact Or.inl (if_pos hn)
  rw [if_neg hn]
  by_cases hl : (unexplained rho).lt logFloor = true
  · exact Or.inl (if_pos hl)
  rw [if_neg hl]
  refine Or.inr ?_
  rw [Bool.not_eq_true] at hn
  have hrho : rho.isNaN = false := by
    cases rho with
    | nan => cases hn
    | number _ _ => rfl
  exact unexplained_rank (clampedCorrelation_within hrho) hl

theorem halved_hasRank {x : Double} {r : Nat} (hx : (-x).HasRank r) (hr : r < double.top) :
    (-half * x).HasRank (double.nearest (double.units half.rank * double.units r) double.one) := by
  have hhalf : (-(-half)).HasRank half.rank := hasRank_iff.mpr ⟨_, _, rfl, rfl, by simp⟩
  exact mul_hasRank hhalf hx bounds.2.2.1 hr

theorem negated_hasRank {x : Double} {p : Int} (hx : x.position = some p) (hp : p ≤ 0) :
    (-x).HasRank p.natAbs := by
  rw [HasRank, position_neg, hx, Option.map_some, Option.some.injEq]
  omega

theorem lnFloor_hasRank : (-logFloor.ln).HasRank logFloor.ln.rank := by
  have hneg := negated_hasRank bounds.1.1 (by omega)
  rwa [Int.natAbs_neg, Int.natAbs_natCast] at hneg

theorem ceiling_hasRank : ceiling.HasRank (double.nearest
    (double.units half.rank * double.units logFloor.ln.rank) double.one) :=
  halved_hasRank lnFloor_hasRank bounds.1.2.2

theorem ln_argument (rho : Double) :
    ∃ p, ((unexplained rho).max logFloor).ln.position = some p ∧
      -(logFloor.ln.rank : Int) ≤ p ∧ p ≤ 0 := by
  rcases argument_cases rho with heq | ⟨rank, heq, hlow, hhigh⟩
  · rw [heq]
    exact ⟨_, bounds.1.1, le_rfl, by omega⟩
  · have htop : double.power 0 < double.top := FloatFormat.power_lt_top (by decide)
    have hpos : 53 * double.binade < double.power 0 := by decide
    have hln : (atRank false rank : Double).ln = Logarithm.ofRank rank := by
      have hmin : min rank double.top = rank := Nat.min_eq_left (by omega)
      simp only [ln, atRank, hmin]
      rw [if_neg (by omega), if_neg Bool.false_ne_true, if_neg (by omega)]
    obtain ⟨hfin, hvalue, hle⟩ := Logarithm.ofRank_between hlow hhigh
    obtain ⟨p, hp, hl, hu⟩ := position_of_value (e := 6) (isNaN_of_isFinite hfin)
      (by linarith) hle
    have hfloor := bounds.1.2.1
    rw [heq, hln]
    exact ⟨p, hp, by omega, hu⟩

theorem mutualInformation_le (rho : Double) :
    ∃ r, (mutualInformation rho).HasRank r ∧ r ≤ ceiling.rank := by
  obtain ⟨p, hp, hlow, hhigh⟩ := ln_argument rho
  have hle : p.natAbs ≤ logFloor.ln.rank := by omega
  have hrank := halved_hasRank (negated_hasRank hp hhigh) (lt_of_le_of_lt hle bounds.1.2.2)
  refine ⟨_, hrank, ?_⟩
  rw [ceiling_hasRank.rank_eq]
  exact double.nearest_mono (one_pos _) (one_pos _) (Nat.mul_le_mul_right _
    (Nat.mul_le_mul_left _ (double.units_strictMono.monotone hle)))

theorem mutualInformation_hasRank (rho : Double) :
    ∃ r, (mutualInformation rho).HasRank r ∧ r ≤ double.power 10 := by
  obtain ⟨r, hr, hle⟩ := mutualInformation_le rho
  exact ⟨r, hr, le_trans hle bounds.2.2.2⟩

theorem correlation_decided {a b : Matrix Single} (h : a.size = b.size) :
    (rowCorrelations a b = [] ∧ correlation a b = .error (.statistics .constantOutputs)) ∨
      (rowCorrelations a b ≠ [] ∧ ∃ rho, correlation a b = .ok rho) := by
  unfold correlation
  rw [if_pos h]
  cases hr : rowCorrelations a b with
  | nil => exact Or.inl ⟨rfl, rfl⟩
  | cons rho rs => exact Or.inr ⟨by simp, _, rfl⟩

end Statistics

namespace Information

open Statistics Binary
open FloatFormat (double)

theorem result_ofOutputs (a b : Matrix Single) :
    (ofOutputs a b).result = (correlation a b).map mutualInformation := by
  have hc : ∀ rho, (ofCorrelation rho).result = .ok (mutualInformation rho) := by
    intro rho
    unfold ofCorrelation
    by_cases hs : isSaturated rho = true
    · simp only [hs, if_true]
      rfl
    · simp [hs]
  unfold ofOutputs
  rw [Logged.result_bind, Logged.result_lift]
  cases correlation a b with
  | error fault => rfl
  | ok rho => exact hc rho

theorem ofOutputs_hasRank {a b : Matrix Single} {x : Double}
    (h : (ofOutputs a b).result = .ok x) : ∃ r, x.HasRank r ∧ r ≤ double.power 10 := by
  rw [result_ofOutputs] at h
  cases hc : correlation a b with
  | error fault =>
    rw [hc] at h
    cases h
  | ok rho =>
    rw [hc] at h
    cases h
    exact mutualInformation_hasRank rho

/-- Some row varies in both outputs. -/
def Correlated (a b : Matrix Single) : Prop := rowCorrelations a b ≠ []

instance (a b : Matrix Single) : Decidable (Correlated a b) :=
  inferInstanceAs (Decidable (rowCorrelations a b ≠ []))

theorem ofOutputs_decided {a b : Matrix Single} (h : a.size = b.size) :
    (Correlated a b ↔ ∃ x, (ofOutputs a b).result = .ok x) ∧
      ((∃ x, (ofOutputs a b).result = .ok x) ∨
        (ofOutputs a b).result = .error (.statistics .constantOutputs)) := by
  rw [result_ofOutputs]
  rcases correlation_decided h with ⟨hr, hc⟩ | ⟨hr, rho, hc⟩
  · rw [hc]
    exact ⟨⟨fun hn => absurd hr hn, fun ⟨x, hx⟩ => by cases hx⟩, Or.inr rfl⟩
  · rw [hc]
    exact ⟨⟨fun _ => ⟨_, rfl⟩, fun _ => hr⟩, Or.inl ⟨_, rfl⟩⟩

theorem table_decided {outputs : List (Matrix Single)} {size : Nat × Nat}
    (h : ∀ o ∈ outputs, o.size = size) :
    (outputs.Pairwise Correlated → ∃ t, (table outputs).result = .ok t) ∧
      (¬outputs.Pairwise Correlated →
        (table outputs).result = .error (.statistics .constantOutputs)) := by
  have hd : ∀ a ∈ outputs, ∀ b ∈ outputs, a.size = b.size := fun a ha b hb =>
    (h a ha).trans (h b hb).symm
  have hp : outputs.Pairwise Correlated ↔
      outputs.Pairwise fun a b => ∃ x, (ofOutputs a b).result = .ok x :=
    List.Pairwise.iff_of_mem fun ha hb => (ofOutputs_decided (hd _ ha _ hb)).1
  rw [table, Pairwise.result_table, hp]
  constructor
  · intro hok
    obtain ⟨rows, hu⟩ := Pairwise.upper_ok hok
    exact ⟨_, Pairwise.table_ok_iff.mpr ⟨rows, hu, rfl⟩⟩
  · intro hno
    have hu := Pairwise.upper_error (fun a ha b hb => (ofOutputs_decided (hd a ha b hb)).2) hno
    rw [Pairwise.table, hu]
    rfl

theorem one_le_count {n : Nat} (h : 0 < n) :
    ∃ s, (Scalar.ofNat n : Double).HasRank s ∧ double.one ≤ double.units s := by
  refine ⟨_, hasRank_atRank (double.nearest_le_top _ _), ?_⟩
  have hle : double.power 0 ≤ double.nearest (n * double.one) 1 := by
    apply double.le_nearest Nat.one_pos (by decide)
    rw [FloatFormat.units_power, Nat.mul_one, Nat.pow_zero]
    exact Nat.mul_le_mul_right _ h
  have hmono := double.units_strictMono.monotone hle
  rwa [FloatFormat.units_power, Nat.pow_zero, Nat.one_mul] at hmono

/-- All scores are numbers from zero to `2 ^ 64`, for any number of clients. -/
theorem clientScores_hasRank {outputs : List (Matrix Single)} {t : Matrix Double}
    (h : (table outputs).result = .ok t) :
    ∀ s ∈ clientScores t, ∃ r, s.HasRank r ∧ r ≤ double.power 64 := by
  have hstall : double.plus (double.power 64) (double.power 10) ≤ double.power 64 :=
    FloatFormat.plus_power_stall (by decide) (by decide)
  rw [table, Pairwise.result_table] at h
  intro s hs
  obtain ⟨row, hrow, rfl⟩ := List.mem_map.mp hs
  have hentries := Pairwise.forall_mem_table
    (P := fun x : Double => ∃ r, x.HasRank r ∧ r ≤ double.power 10) h
    ⟨0, hasRank_zero, Nat.zero_le _⟩ (fun a _ b _ x hx => ofOutputs_hasRank hx) row hrow
  obtain ⟨r, hr, hle⟩ := sum_le_of_stall hstall hentries
  have hrows : 0 < t.rows.length := List.length_pos_of_mem hrow
  have hheight : t.rows.length = outputs.length := Pairwise.height_table h
  obtain ⟨c, hc, hone⟩ := one_le_count (show 0 < t.width by
    rw [Pairwise.width_table h]
    omega)
  have ht : r < double.top := lt_of_le_of_lt hle (FloatFormat.power_lt_top (by decide))
  obtain ⟨q, hq, hqr⟩ := hr.div_le ht hc hone
  exact ⟨q, hq, le_trans hqr hle⟩

theorem clientScores_finite {outputs : List (Matrix Single)} {t : Matrix Double}
    (h : (table outputs).result = .ok t) : ∀ s ∈ clientScores t, s.isFinite = true := by
  intro s hs
  obtain ⟨r, hr, hle⟩ := clientScores_hasRank h s hs
  rw [hr.isFinite, decide_eq_true_eq]
  exact lt_of_le_of_lt hle (FloatFormat.power_lt_top (by decide))

end Information

end Federation
