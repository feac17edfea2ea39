import Federation.Scalar
import Federation.Proofs.Float.Grid
import Mathlib.Data.List.Forall2

/-!
# Sums of magnitudes

A number that is not below zero stands at its rank, and a sum of such numbers is an addition of
ranks that rounds at every step. The ranks are natural numbers, so a bound on the members of a sum
becomes a bound on the sum.
-/

set_option autoImplicit false

namespace Federation

namespace FloatFormat

variable (f : FloatFormat)

theorem top_pos : 0 < f.top := by
  have he := f.two_le_exponentBits
  have hp : 2 ^ 2 ≤ 2 ^ f.exponentBits := Nat.pow_le_pow_right (by decide) he
  rw [top, Nat.one_shiftLeft]
  exact Nat.mul_pos (by omega) f.binade_pos

def plus (m r : Nat) : Nat := f.nearest (f.units m + f.units r) 1

/-- Adds ranks from left to right. -/
def tally (start : Nat) (ranks : List Nat) : Nat := ranks.foldl f.plus start

theorem tally_cons (start r : Nat) (ranks : List Nat) :
    f.tally start (r :: ranks) = f.tally (f.plus start r) ranks := rfl

theorem plus_le_top (m r : Nat) : f.plus m r ≤ f.top := f.nearest_le_top _ _

theorem plus_comm (m r : Nat) : f.plus m r = f.plus r m := by
  rw [plus, plus, Nat.add_comm]

theorem plus_mono {m m' r r' : Nat} (hm : m ≤ m') (hr : r ≤ r') : f.plus m r ≤ f.plus m' r' := by
  have hum := f.units_strictMono.monotone hm
  have hur := f.units_strictMono.monotone hr
  exact f.nearest_mono Nat.one_pos Nat.one_pos (by omega)

theorem le_plus_left {m : Nat} (r : Nat) (h : m ≤ f.top) : m ≤ f.plus m r :=
  f.le_nearest Nat.one_pos h (by omega)

theorem le_plus_right {r : Nat} (m : Nat) (h : r ≤ f.top) : r ≤ f.plus m r :=
  f.le_nearest Nat.one_pos h (by omega)

theorem plus_zero {m : Nat} (h : m ≤ f.top) : f.plus m 0 = m := by
  rw [plus, units_zero]
  simpa using f.nearest_units Nat.one_pos h

theorem plus_top {m r : Nat} (h : m = f.top ∨ r = f.top) : f.plus m r = f.top := by
  apply le_antisymm (f.plus_le_top m r)
  rcases h with rfl | rfl
  · exact f.le_plus_left r le_rfl
  · exact f.le_plus_right m le_rfl

theorem tally_append (start : Nat) (ranks ranks' : List Nat) :
    f.tally start (ranks ++ ranks') = f.tally (f.tally start ranks) ranks' :=
  List.foldl_append

theorem tally_le_top {start : Nat} (ranks : List Nat) (h : start ≤ f.top) :
    f.tally start ranks ≤ f.top := by
  induction ranks generalizing start with
  | nil => exact h
  | cons r ranks ih => exact ih (f.plus_le_top start r)

theorem le_tally {start : Nat} (ranks : List Nat) (h : start ≤ f.top) :
    start ≤ f.tally start ranks := by
  induction ranks generalizing start with
  | nil => exact le_rfl
  | cons r ranks ih => exact le_trans (f.le_plus_left r h) (ih (f.plus_le_top start r))

theorem mem_le_tally {start r : Nat} {ranks : List Nat} (hr : r ∈ ranks) (h : r ≤ f.top) :
    r ≤ f.tally start ranks := by
  induction ranks generalizing start with
  | nil => cases hr
  | cons x ranks ih =>
    rcases List.mem_cons.mp hr with rfl | hr
    · exact le_trans (f.le_plus_right start h) (f.le_tally ranks (f.plus_le_top start r))
    · exact ih hr

theorem tally_mono_start {start start' : Nat} (ranks : List Nat) (h : start ≤ start') :
    f.tally start ranks ≤ f.tally start' ranks := by
  induction ranks generalizing start start' with
  | nil => exact h
  | cons r ranks ih => exact ih (f.plus_mono h le_rfl)

theorem tally_le_replicate {start t k : Nat} {ranks : List Nat} (hs : start ≤ f.top)
    (ht : ∀ r ∈ ranks, r ≤ t) (hk : ranks.length ≤ k) :
    f.tally start ranks ≤ f.tally start (List.replicate k t) := by
  induction ranks generalizing start k with
  | nil => exact f.le_tally _ hs
  | cons r ranks ih =>
    cases k with
    | zero => simp at hk
    | succ k =>
      have hr : r ≤ t := ht r (by simp)
      have hp : f.plus start r ≤ f.plus start t := f.plus_mono le_rfl hr
      calc f.tally start (r :: ranks) = f.tally (f.plus start r) ranks := f.tally_cons _ _ _
        _ ≤ f.tally (f.plus start r) (List.replicate k t) :=
          ih (f.plus_le_top start r) (fun x hx => ht x (by simp [hx])) (by simpa using hk)
        _ ≤ f.tally (f.plus start t) (List.replicate k t) := f.tally_mono_start _ hp
        _ = f.tally start (List.replicate (k + 1) t) := rfl

/-- Where adding `t` rounds back to `m`, a sum of members up to `t` stays at `m` for any number
of members. -/
theorem tally_le_of_stall {start t m : Nat} {ranks : List Nat} (hm : f.plus m t ≤ m)
    (hs : start ≤ m) (ht : ∀ r ∈ ranks, r ≤ t) : f.tally start ranks ≤ m := by
  induction ranks generalizing start with
  | nil => exact hs
  | cons r ranks ih =>
    have hp : f.plus start r ≤ m := le_trans (f.plus_mono hs (ht r (by simp))) hm
    exact ih hp fun x hx => ht x (by simp [hx])

end FloatFormat

namespace Binary

variable {f : FloatFormat} {x y : Binary f} {r s : Nat}

/-- The number is not below zero and has this rank; both zeros have the first one. -/
def HasRank (x : Binary f) (r : Nat) : Prop := x.position = some (r : Int)

/-- Not below zero, where it is a number at all. -/
def Unsigned (x : Binary f) : Prop := x = nan ∨ ∃ r, x.HasRank r

theorem hasRank_iff :
    x.HasRank r ↔ ∃ negative rank, x = number negative rank ∧ rank.val = r ∧
      (negative = true → r = 0) := by
  unfold HasRank position
  cases x with
  | nan => simp
  | number negative rank =>
    simp only [Option.some.injEq, number.injEq]
    constructor
    · intro h
      refine ⟨negative, rank, ⟨rfl, rfl⟩, ?_, ?_⟩
      · split at h <;> omega
      · intro hn
        rw [if_pos hn] at h
        omega
    · rintro ⟨_, _, ⟨rfl, rfl⟩, rfl, hz⟩
      split
      · rename_i hn
        have := hz hn
        omega
      · rfl

theorem HasRank.le_top (hx : x.HasRank r) : r ≤ f.top := by
  obtain ⟨_, rank, -, rfl, -⟩ := hasRank_iff.mp hx
  exact Nat.le_of_lt_succ rank.isLt

def rank : Binary f → Nat
  | nan => 0
  | number _ rank => rank.val

theorem HasRank.rank_eq (hx : x.HasRank r) : x.rank = r := by
  obtain ⟨_, _, rfl, rfl, -⟩ := hasRank_iff.mp hx
  rfl

theorem HasRank.unique (hx : x.HasRank r) (hx' : x.HasRank s) : r = s :=
  hx.rank_eq.symm.trans hx'.rank_eq

theorem not_hasRank_nan : ¬(nan : Binary f).HasRank r := by
  simp [HasRank, position]

theorem HasRank.isNaN (hx : x.HasRank r) : x.isNaN = false := by
  obtain ⟨_, _, rfl, -⟩ := hasRank_iff.mp hx
  rfl

theorem HasRank.isFinite (hx : x.HasRank r) : x.isFinite = decide (r < f.top) := by
  obtain ⟨_, _, rfl, rfl, -⟩ := hasRank_iff.mp hx
  rfl

theorem HasRank.lt_eq (hx : x.HasRank r) (hy : y.HasRank s) : x.lt y = decide (r < s) := by
  have hx' : x.position = some (r : Int) := hx
  have hy' : y.position = some (s : Int) := hy
  simp [lt, compares, hx', hy']

theorem lt_eq_rank {xs : List (Binary f)} (h : ∀ x ∈ xs, x.HasRank x.rank) :
    ∀ x ∈ xs, ∀ y ∈ xs, x.lt y = decide (x.rank < y.rank) :=
  fun x hx y hy => (h x hx).lt_eq (h y hy)

theorem HasRank.le_eq (hx : x.HasRank r) (hy : y.HasRank s) : x.le y = decide (r ≤ s) := by
  have hx' : x.position = some (r : Int) := hx
  have hy' : y.position = some (s : Int) := hy
  simp [le, compares, hx', hy']

theorem HasRank.eq_eq (hx : x.HasRank r) (hy : y.HasRank s) : x.eq y = decide (r = s) := by
  have hx' : x.position = some (r : Int) := hx
  have hy' : y.position = some (s : Int) := hy
  simp [eq, compares, hx', hy']

theorem HasRank.of_le (hx : x.HasRank r) (h : x.le y = true) : ∃ s, y.HasRank s ∧ r ≤ s := by
  have hx' : x.position = some (r : Int) := hx
  cases hp : y.position with
  | none => simp [le, compares, hp] at h
  | some b =>
    have hb : (r : Int) ≤ b := by simpa [le, compares, hx', hp] using h
    refine ⟨b.toNat, ?_, by omega⟩
    unfold HasRank
    rw [hp]
    congr 1
    omega

theorem HasRank.of_lt (hx : x.HasRank r) (h : x.lt y = true) : ∃ s, y.HasRank s ∧ r < s := by
  have hle : x.le y = true := by
    unfold lt compares at h
    unfold le compares
    split at h
    · exact decide_eq_true (Int.le_of_lt (of_decide_eq_true h))
    · cases h
  obtain ⟨s, hs, -⟩ := hx.of_le hle
  rw [hx.lt_eq hs] at h
  exact ⟨s, hs, of_decide_eq_true h⟩

theorem hasRank_atRank (h : r ≤ f.top) : (atRank false r : Binary f).HasRank r :=
  hasRank_iff.mpr ⟨_, _, rfl, Nat.min_eq_left h, by simp⟩

theorem hasRank_vanishing (negative : Bool) : (atRank negative 0 : Binary f).HasRank 0 :=
  hasRank_iff.mpr ⟨_, _, rfl, Nat.zero_min _, fun _ => rfl⟩

theorem hasRank_zero : (zero : Binary f).HasRank 0 := hasRank_vanishing false

theorem HasRank.unsigned (hx : x.HasRank r) : x.Unsigned := Or.inr ⟨r, hx⟩

theorem Unsigned.hasRank (hx : x.Unsigned) (h : x.isNaN = false) : ∃ r, x.HasRank r := by
  rcases hx with rfl | hx
  · cases h
  · exact hx

theorem Unsigned.finite (hx : x.Unsigned) (h : x.isFinite = true) :
    ∃ r, x.HasRank r ∧ r < f.top := by
  rcases hx with rfl | ⟨r, hr⟩
  · cases h
  · rw [hr.isFinite] at h
    exact ⟨r, hr, of_decide_eq_true h⟩

theorem nan_lt (y : Binary f) : nan.lt y = false := rfl

theorem lt_nan (x : Binary f) : x.lt nan = false := by cases x <;> rfl

theorem Unsigned.not_lt (hx : x.Unsigned) (h : x.isFinite = false) (y : Binary f) :
    x.lt y = false := by
  rcases hx with rfl | ⟨r, hr⟩
  · exact nan_lt y
  · rw [hr.isFinite, decide_eq_false_iff_not] at h
    have hx' : x.position = some (r : Int) := hr
    cases y with
    | nan => exact lt_nan x
    | number negative rank =>
      have hlt := rank.isLt
      have hy : (number negative rank : Binary f).position
          = some (if negative then -(rank.val : Int) else rank.val) := rfl
      have hle : (if negative then -(rank.val : Int) else rank.val) ≤ r := by
        split <;> omega
      simpa [lt, compares, hx', hy] using hle

theorem lt_of_lt_of_not_lt {z : Binary f} (hz : z.isNaN = false) (hzy : z.lt y = false)
    (hxy : x.lt y = true) : x.lt z = true := by
  cases z with
  | nan => cases hz
  | number _ _ =>
    cases y with
    | nan => rw [lt_nan] at hxy; cases hxy
    | number _ _ =>
      cases x with
      | nan => cases hxy
      | number _ _ =>
        simp only [lt, compares, position, decide_eq_false_iff_not, decide_eq_true_eq] at *
        omega

theorem signedUnits_eq {negative : Bool} (h : negative = true → r = 0) :
    f.signedUnits negative r = f.units r := by
  unfold FloatFormat.signedUnits
  split
  · rename_i hn
    rw [h hn, f.units_zero]
    rfl
  · rfl

theorem positive_of_top {negative : Bool} (h : negative = true → r = 0) (hr : r = f.top) :
    negative = false := by
  have htop := f.top_pos
  cases negative with
  | false => rfl
  | true =>
    have hz := h rfl
    omega

theorem hasRank_ofUnits (zeroNegative : Bool) (n : Nat) :
    (ofUnits zeroNegative (n : Int) 1 : Binary f).HasRank (f.nearest n 1) := by
  unfold ofUnits
  by_cases hz : (n : Int) = 0
  · have hn : f.nearest n 1 = 0 := by
      rw [Int.natCast_eq_zero.mp hz]
      exact f.nearest_zero Nat.one_pos
    rw [if_pos hz, hn]
    exact hasRank_vanishing _
  · have hneg : ¬(n : Int) < 0 := by omega
    rw [if_neg hz, decide_eq_false hneg, Int.natAbs_natCast]
    exact hasRank_atRank (f.nearest_le_top _ _)

theorem HasRank.add (hx : x.HasRank r) (hy : y.HasRank s) : (x + y).HasRank (f.plus r s) := by
  obtain ⟨n, a, rfl, rfl, hn⟩ := hasRank_iff.mp hx
  obtain ⟨m, b, rfl, rfl, hm⟩ := hasRank_iff.mp hy
  show (Binary.add (number n a) (number m b)).HasRank _
  unfold Binary.add
  simp only
  by_cases ha : a.val = f.top
  · rw [if_pos ha, f.plus_top (Or.inl ha)]
    have hb : ¬(b.val = f.top ∧ n ≠ m) := by
      rintro ⟨hb, hne⟩
      exact hne ((positive_of_top hn ha).trans (positive_of_top hm hb).symm)
    rw [if_neg hb, ← ha]
    exact hx
  · rw [if_neg ha]
    by_cases hb : b.val = f.top
    · rw [if_pos hb, f.plus_top (Or.inr hb), ← hb]
      exact hy
    · rw [if_neg hb, signedUnits_eq hn, signedUnits_eq hm, ← Int.natCast_add]
      exact hasRank_ofUnits _ _

theorem nan_add (y : Binary f) : nan + y = nan := rfl

theorem add_nan (x : Binary f) : x + nan = nan := by cases x <;> rfl

theorem Unsigned.add (hx : x.Unsigned) (hy : y.Unsigned) : (x + y).Unsigned := by
  rcases hx with rfl | ⟨r, hr⟩
  · exact Or.inl (nan_add y)
  · rcases hy with rfl | ⟨s, hs⟩
    · exact Or.inl (add_nan x)
    · exact (hr.add hs).unsigned

theorem Unsigned.add_isFinite (hx : x.Unsigned) (hy : y.Unsigned)
    (h : (x + y).isFinite = true) : x.isFinite = true ∧ y.isFinite = true := by
  rcases hx with rfl | ⟨r, hr⟩
  · rw [nan_add] at h
    cases h
  · rcases hy with rfl | ⟨s, hs⟩
    · rw [add_nan] at h
      cases h
    · rw [(hr.add hs).isFinite, decide_eq_true_eq] at h
      rw [hr.isFinite, hs.isFinite, decide_eq_true_eq, decide_eq_true_eq]
      have hl := f.le_plus_left s hr.le_top
      have hu := f.le_plus_right r hs.le_top
      omega

theorem Unsigned.add_vanishes_iff (hx : x.Unsigned) (hy : y.Unsigned) :
    (x + y).HasRank 0 ↔ x.HasRank 0 ∧ y.HasRank 0 := by
  rcases hx with rfl | ⟨r, hr⟩
  · rw [nan_add]
    exact iff_of_false not_hasRank_nan fun h => not_hasRank_nan h.1
  · rcases hy with rfl | ⟨s, hs⟩
    · rw [add_nan]
      exact iff_of_false not_hasRank_nan fun h => not_hasRank_nan h.2
    · have hsum := hr.add hs
      constructor
      · intro h
        have hz := hsum.unique h
        have hl := f.le_plus_left s hr.le_top
        have hu := f.le_plus_right r hs.le_top
        obtain ⟨rfl, rfl⟩ : r = 0 ∧ s = 0 := by omega
        exact ⟨hr, hs⟩
      · rintro ⟨hx, hy⟩
        rwa [hr.unique hx, hs.unique hy, f.plus_zero (Nat.zero_le _)] at hsum

theorem HasRank.foldl {xs : List (Binary f)} {rs : List Nat} (hx : x.HasRank r)
    (h : List.Forall₂ HasRank xs rs) : (xs.foldl (· + ·) x).HasRank (f.tally r rs) := by
  induction h generalizing x r with
  | nil => exact hx
  | cons hy _ ih => exact ih (hx.add hy)

theorem hasRank_sum {xs : List (Binary f)} {rs : List Nat} (h : List.Forall₂ HasRank xs rs) :
    (Scalar.sum xs).HasRank (f.tally 0 rs) :=
  (hasRank_vanishing true).foldl h

theorem exists_ranks {xs : List (Binary f)} {P : Nat → Prop}
    (h : ∀ x ∈ xs, ∃ r, x.HasRank r ∧ P r) :
    ∃ rs, List.Forall₂ HasRank xs rs ∧ ∀ r ∈ rs, P r := by
  induction xs with
  | nil => exact ⟨[], .nil, by simp⟩
  | cons x xs ih =>
    obtain ⟨r, hr, hp⟩ := h x (by simp)
    obtain ⟨rs, hrs, hps⟩ := ih fun z hz => h z (by simp [hz])
    refine ⟨r :: rs, .cons hr hrs, ?_⟩
    intro s hs
    rcases List.mem_cons.mp hs with rfl | hs
    · exact hp
    · exact hps s hs

theorem Unsigned.foldl {xs : List (Binary f)} (hx : x.Unsigned) (h : ∀ z ∈ xs, z.Unsigned) :
    (xs.foldl (· + ·) x).Unsigned ∧
      ((xs.foldl (· + ·) x).isFinite = true →
        x.isFinite = true ∧ ∀ z ∈ xs, z.isFinite = true) := by
  induction xs generalizing x with
  | nil => exact ⟨hx, fun hf => ⟨hf, by simp⟩⟩
  | cons y xs ih =>
    have hy : y.Unsigned := h y (by simp)
    obtain ⟨hu, hf⟩ := ih (hx.add hy) fun z hz => h z (by simp [hz])
    refine ⟨hu, fun hfin => ?_⟩
    obtain ⟨hxy, hxs⟩ := hf hfin
    obtain ⟨hfx, hfy⟩ := hx.add_isFinite hy hxy
    refine ⟨hfx, ?_⟩
    intro z hz
    rcases List.mem_cons.mp hz with rfl | hz
    · exact hfy
    · exact hxs z hz

theorem unsigned_sum {xs : List (Binary f)} (h : ∀ z ∈ xs, z.Unsigned) :
    (Scalar.sum xs).Unsigned :=
  (Unsigned.foldl (hasRank_vanishing true).unsigned h).1

theorem Unsigned.foldl_vanishes_iff {xs : List (Binary f)} (hx : x.Unsigned)
    (h : ∀ z ∈ xs, z.Unsigned) :
    (xs.foldl (· + ·) x).HasRank 0 ↔ x.HasRank 0 ∧ ∀ z ∈ xs, z.HasRank 0 := by
  induction xs generalizing x with
  | nil => simp
  | cons y xs ih =>
    have hy : y.Unsigned := h y (by simp)
    rw [List.foldl_cons, ih (hx.add hy) fun z hz => h z (by simp [hz]), hx.add_vanishes_iff hy,
      List.forall_mem_cons, and_assoc]

theorem sum_vanishes_iff {xs : List (Binary f)} (h : ∀ z ∈ xs, z.Unsigned) :
    (Scalar.sum xs).HasRank 0 ↔ ∀ z ∈ xs, z.HasRank 0 := by
  have hstart : (negZero : Binary f).HasRank 0 := hasRank_vanishing true
  exact (hstart.unsigned.foldl_vanishes_iff h).trans (and_iff_right hstart)

theorem isFinite_of_sum {xs : List (Binary f)} (h : ∀ z ∈ xs, z.Unsigned)
    (hf : (Scalar.sum xs).isFinite = true) : ∀ z ∈ xs, z.isFinite = true :=
  ((Unsigned.foldl (hasRank_vanishing true).unsigned h).2 hf).2

theorem sum_le_of_stall {xs : List (Binary f)} {t m : Nat} (hm : f.plus m t ≤ m)
    (h : ∀ z ∈ xs, ∃ r, z.HasRank r ∧ r ≤ t) : ∃ r, (Scalar.sum xs).HasRank r ∧ r ≤ m := by
  obtain ⟨rs, hrs, hp⟩ := exists_ranks h
  exact ⟨f.tally 0 rs, hasRank_sum hrs, f.tally_le_of_stall hm (Nat.zero_le m) hp⟩

end Binary

end Federation
