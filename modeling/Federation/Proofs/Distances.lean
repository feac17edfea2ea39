import Federation.Distance
import Federation.Proofs.Float.Magnitudes
import Mathlib.Data.List.Forall2
import Mathlib.Data.List.Zip

/-!
# Distances

A distance is the same from both sides and never below zero. An entry that is not finite makes every
distance to it one that is not finite; finite updates, of whatever length, are at most `2 ^ 210`
apart, since a sum of bounded terms stops growing where a term is less than half a step.
-/

set_option autoImplicit false

namespace Federation

def FloatFormat.power (f : FloatFormat) (e : Nat) : Nat :=
  (e + (1 <<< (f.exponentBits - 1)) - 1) * f.binade

namespace Params

def isFinite (p : Params Single) : Bool := p.flatten.all Binary.isFinite

theorem isFinite_iff {p : Params Single} :
    p.isFinite = true ↔ ∀ t ∈ p.tensors, ∀ x ∈ t.entries, x.isFinite = true := by
  simp only [isFinite, flatten, List.all_eq_true, List.mem_flatMap, forall_exists_index, and_imp]
  exact ⟨fun h t ht x hx => h x t ht hx, fun h x t ht hx => h t ht x hx⟩

end Params

theorem forall_of_forall₂ {α β : Type} {P : α → Prop} {Q : β → Prop} {xs : List α} {ys : List β}
    (h : List.Forall₂ (fun x y => P x ∧ Q y) xs ys) : (∀ x ∈ xs, P x) ∧ ∀ y ∈ ys, Q y := by
  induction h with
  | nil => simp
  | cons hxy _ ih => simpa [hxy] using ih

theorem forall_mem_zipWith {α β γ : Type} {g : α → β → γ} {P : γ → Prop} {xs : List α}
    {ys : List β} : (∀ z ∈ List.zipWith g xs ys, P z) ↔ ∀ e ∈ xs.zip ys, P (g e.1 e.2) := by
  rw [← List.map_uncurry_zip_eq_zipWith, List.forall_mem_map]
  rfl

theorem forall_of_zipWith {α β γ : Type} {g : α → β → γ} {P : α → Prop} {Q : β → Prop}
    {R : γ → Prop} {xs : List α} {ys : List β} (hl : xs.length = ys.length)
    (hg : ∀ x y, R (g x y) → P x ∧ Q y) (h : ∀ z ∈ List.zipWith g xs ys, R z) :
    (∀ x ∈ xs, P x) ∧ ∀ y ∈ ys, Q y :=
  forall_of_forall₂ (((List.forall_zipWith hl).mp (List.forall_iff_forall_mem.mpr h)).imp hg)

namespace Euclid

open Binary FloatFormat

/-- What rounding makes of the bounds on the way from entries to a distance: of the greatest entry,
of a difference, a square, a sum of squares, its root, and a sum of roots. -/
theorem roundings_le :
    double.nearest (single.units (single.top - 1) * double.one) single.one ≤ double.power 128 ∧
    double.plus (double.power 128) (double.power 128) ≤ double.power 129 ∧
    double.nearest (double.units (double.power 129) * double.units (double.power 129)) double.one
      ≤ double.power 258 ∧
    double.plus (double.power 312) (double.power 258) ≤ double.power 312 ∧
    double.nearestRoot (double.units (double.power 312) * double.one) ≤ double.power 156 ∧
    double.plus (double.power 210) (double.power 156) ≤ double.power 210 := by
  decide +kernel

theorem square_comm (x y : Single) :
    (x.toDouble - y.toDouble) * (x.toDouble - y.toDouble)
      = (y.toDouble - x.toDouble) * (y.toDouble - x.toDouble) :=
  mul_self_eq (abs_sub_comm _ _)

theorem distance_comm (v w : List Single) : distance v w = distance w v := by
  unfold distance
  rw [List.zipWith_comm]
  simp only [square_comm]

theorem squares_unsigned (v w : List Single) :
    ∀ z ∈ List.zipWith (fun x y => (x.toDouble - y.toDouble) * (x.toDouble - y.toDouble)) v w,
      z.Unsigned :=
  forall_mem_zipWith.mpr fun _ _ => mul_self_unsigned _

theorem distance_unsigned (v w : List Single) : (distance v w).Unsigned :=
  (unsigned_sum (squares_unsigned v w)).sqrt

theorem isFinite_of_distance {v w : List Single} (hl : v.length = w.length)
    (h : (distance v w).isFinite = true) :
    (∀ x ∈ v, x.isFinite = true) ∧ ∀ y ∈ w, y.isFinite = true := by
  have hu := squares_unsigned v w
  have hz := isFinite_of_sum hu (isFinite_of_sqrt h)
  refine forall_of_zipWith hl (fun x y hxy => ?_) hz
  obtain ⟨hx, hy⟩ := isFinite_of_sub (isFinite_of_mul hxy).1
  exact ⟨isFinite_of_convert hx, isFinite_of_convert hy⟩

theorem widen_hasRank {x : Single} (h : x.isFinite = true) :
    ∃ r, x.toDouble.abs.HasRank r ∧ r ≤ double.power 128 := by
  obtain ⟨r, hr, ht⟩ := finite_iff_abs.mp h
  obtain ⟨hlast, -⟩ := roundings_le
  refine ⟨_, abs_convert_hasRank hr ht, le_trans ?_ hlast⟩
  apply FloatFormat.nearest_mono _ (one_pos _) (one_pos _)
  refine Nat.mul_le_mul_right _ (Nat.mul_le_mul_right _ ?_)
  exact (FloatFormat.units_strictMono _).monotone (Nat.le_sub_one_of_lt ht)

theorem square_hasRank {x y : Single} (hx : x.isFinite = true) (hy : y.isFinite = true) :
    ∃ r, ((x.toDouble - y.toDouble) * (x.toDouble - y.toDouble)).HasRank r ∧
      r ≤ double.power 258 := by
  have hw : double.power 128 < double.top := by decide
  have ht : double.power 129 < double.top := by decide
  obtain ⟨-, hd, hs, -⟩ := roundings_le
  obtain ⟨a, ha, hla⟩ := widen_hasRank hx
  obtain ⟨b, hb, hlb⟩ := widen_hasRank hy
  obtain ⟨q, hq, hlq⟩ := abs_sub_hasRank ha (by omega) hb (by omega)
  have hq' : q ≤ double.power 129 :=
    le_trans hlq (le_trans (FloatFormat.plus_mono _ hla hlb) hd)
  refine ⟨_, mul_self_of_lt hq (by omega), le_trans ?_ hs⟩
  have hu := (FloatFormat.units_strictMono double).monotone hq'
  exact FloatFormat.nearest_mono _ (one_pos _) (one_pos _)
    (Nat.mul_le_mul_right _ (Nat.mul_le_mul hu hu))

theorem distance_hasRank {v w : List Single} (hv : ∀ x ∈ v, x.isFinite = true)
    (hw : ∀ y ∈ w, y.isFinite = true) :
    ∃ r, (distance v w).HasRank r ∧ r ≤ double.power 156 := by
  have ht : double.power 312 < double.top := by decide
  obtain ⟨-, -, -, hstall, hroot, -⟩ := roundings_le
  have hz : ∀ z ∈ List.zipWith
      (fun x y => (x.toDouble - y.toDouble) * (x.toDouble - y.toDouble)) v w,
      ∃ r, z.HasRank r ∧ r ≤ double.power 258 := by
    rw [forall_mem_zipWith]
    intro e he
    obtain ⟨hx, hy⟩ := List.of_mem_zip he
    exact square_hasRank (hv e.1 hx) (hw e.2 hy)
  obtain ⟨m, hm, hlm⟩ := sum_le_of_stall hstall hz
  obtain ⟨q, hq, hlq⟩ := hm.sqrt (by omega)
  refine ⟨q, hq, le_trans hlq (le_trans (FloatFormat.nearestRoot_mono _ ?_) hroot)⟩
  exact Nat.mul_le_mul_right _ ((FloatFormat.units_strictMono _).monotone hlm)

end Euclid

namespace Params

open Binary FloatFormat

variable {p q : Params Single} {d : Double}

theorem distance_ok_iff :
    p.distance q = .ok d ↔ p.layout = q.layout ∧
      d = Scalar.sum (List.zipWith (fun s t => Euclid.distance s.entries t.entries)
        p.tensors q.tensors) := by
  unfold distance
  split
  · rename_i h
    simp [h, eq_comm]
  · rename_i h
    simp [h]

theorem distance_exists (h : p.layout = q.layout) : ∃ d, p.distance q = .ok d :=
  ⟨_, distance_ok_iff.mpr ⟨h, rfl⟩⟩

theorem distance_comm (h : p.distance q = .ok d) : q.distance p = .ok d := by
  obtain ⟨hl, rfl⟩ := distance_ok_iff.mp h
  refine distance_ok_iff.mpr ⟨hl.symm, ?_⟩
  rw [List.zipWith_comm]
  simp only [Euclid.distance_comm]

theorem terms_unsigned (ps qs : List (Tensor Single)) :
    ∀ z ∈ List.zipWith (fun s t => Euclid.distance s.entries t.entries) ps qs, z.Unsigned :=
  forall_mem_zipWith.mpr fun _ _ => Euclid.distance_unsigned _ _

theorem distance_unsigned (h : p.distance q = .ok d) : d.Unsigned := by
  obtain ⟨-, rfl⟩ := distance_ok_iff.mp h
  exact unsigned_sum (terms_unsigned p.tensors q.tensors)

theorem tensors_isFinite {ps qs : List (Tensor Single)}
    (hl : ps.map Tensor.shape = qs.map Tensor.shape)
    (h : List.Forall₂ (fun s t => (Euclid.distance s.entries t.entries).isFinite = true) ps qs) :
    List.Forall₂ (fun s t => (∀ x ∈ s.entries, x.isFinite = true) ∧
      ∀ y ∈ t.entries, y.isFinite = true) ps qs := by
  induction h with
  | nil => exact .nil
  | @cons s t _ _ hst _ ih =>
    obtain ⟨hshape, hrest⟩ := List.cons.inj hl
    have hlen : s.entries.length = t.entries.length := by
      rw [s.length_entries, t.length_entries, hshape]
    exact .cons (Euclid.isFinite_of_distance hlen hst) (ih hrest)

/-- Only between finite updates is a distance finite. -/
theorem isFinite_of_distance (h : p.distance q = .ok d) (hd : d.isFinite = true) :
    p.isFinite = true ∧ q.isFinite = true := by
  obtain ⟨hl, rfl⟩ := distance_ok_iff.mp h
  have hu := terms_unsigned p.tensors q.tensors
  have hlen : p.tensors.length = q.tensors.length := by
    simpa [layout] using congrArg List.length hl
  have hz := (List.forall_zipWith hlen).mp (List.forall_iff_forall_mem.mpr (isFinite_of_sum hu hd))
  obtain ⟨hp, hq⟩ := forall_of_forall₂ (tensors_isFinite hl hz)
  exact ⟨isFinite_iff.mpr hp, isFinite_iff.mpr hq⟩

theorem distance_hasRank (hp : p.isFinite = true) (hq : q.isFinite = true)
    (h : p.distance q = .ok d) : ∃ r, d.HasRank r ∧ r ≤ double.power 210 := by
  obtain ⟨-, -, -, -, -, hstall⟩ := Euclid.roundings_le
  obtain ⟨-, rfl⟩ := distance_ok_iff.mp h
  apply sum_le_of_stall hstall
  rw [forall_mem_zipWith]
  intro e he
  obtain ⟨hs, ht⟩ := List.of_mem_zip he
  exact Euclid.distance_hasRank (isFinite_iff.mp hp e.1 hs) (isFinite_iff.mp hq e.2 ht)

end Params

end Federation
