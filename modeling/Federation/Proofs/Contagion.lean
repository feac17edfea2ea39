import Federation.Proofs.Obstacles

/-!
# Contagion

An entry that is not finite makes an output that is not finite in every row of the batch, and such a
row has no correlation with any other. So no step has to look for such entries: the pair of their
client and any other client has no usable row, and the round fails. The softmax turns an infinity
into a zero or a one, and passes on the invalid value only.
-/

set_option autoImplicit false

namespace Federation

namespace Statistics

open Binary

theorem isFinite_of_moments {c d : Double} {es : List (Single × Single)} {start m : Moments}
    (hm : es.foldl (fun m e => m.add (e.1.toDouble - c) (e.2.toDouble - d)) start = m)
    (ha : m.firstVariance.isFinite = true) (hb : m.secondVariance.isFinite = true) :
    (start.firstVariance.isFinite = true ∧ start.secondVariance.isFinite = true) ∧
      ∀ e ∈ es, e.1.isFinite = true ∧ e.2.isFinite = true := by
  induction es generalizing start with
  | nil =>
    cases hm
    exact ⟨⟨ha, hb⟩, by simp⟩
  | cons e es ih =>
    obtain ⟨⟨hx, hy⟩, hall⟩ := ih hm
    obtain ⟨hfirst, hdx⟩ := isFinite_of_add hx
    obtain ⟨hsecond, hdy⟩ := isFinite_of_add hy
    have hex := isFinite_of_convert (isFinite_of_sub (isFinite_of_mul hdx).1).1
    have hey := isFinite_of_convert (isFinite_of_sub (isFinite_of_mul hdy).1).1
    exact ⟨⟨hfirst, hsecond⟩, List.forall_mem_cons.mpr ⟨⟨hex, hey⟩, hall⟩⟩

theorem isFinite_of_rowCorrelation {a b : List Single} {rho : Double} (hl : a.length = b.length)
    (h : rowCorrelation? a b = some rho) :
    (∀ x ∈ a, x.isFinite = true) ∧ ∀ y ∈ b, y.isFinite = true := by
  unfold rowCorrelation? at h
  split at h
  · cases h
  · simp only at h
    split at h
    · rename_i hs
      rw [Bool.and_eq_true] at hs
      obtain ⟨hfirst, hsecond⟩ := isFinite_of_mul (isFinite_of_sqrt hs.2)
      obtain ⟨-, hall⟩ := isFinite_of_moments rfl hfirst hsecond
      exact forall_of_zipWith hl (fun _ _ hxy => hxy) hall
    · cases h

end Statistics

namespace Information

open Statistics

theorem Correlated.finite_rows {a b : Matrix Single} (h : Correlated a b) (hs : a.size = b.size) :
    (∃ row ∈ a.rows, ∀ x ∈ row, x.isFinite = true) ∧
      ∃ row ∈ b.rows, ∀ x ∈ row, x.isFinite = true := by
  obtain ⟨rho, hrho⟩ := List.exists_mem_of_ne_nil _ h
  obtain ⟨⟨row, row'⟩, he, hr⟩ := List.mem_filterMap.mp hrho
  obtain ⟨ha, hb⟩ := List.of_mem_zip he
  have hl : row.length = row'.length := by
    rw [a.length_row row ha, b.length_row row' hb]
    exact congrArg Prod.snd hs
  obtain ⟨hx, hy⟩ := isFinite_of_rowCorrelation hl hr
  exact ⟨⟨row, ha, hx⟩, row', hb, hy⟩

theorem finite_of_pairwise {outputs : List (Matrix Single)} {size : Nat × Nat}
    (h : outputs.Pairwise Correlated) (hs : ∀ o ∈ outputs, o.size = size)
    (hlen : 2 ≤ outputs.length) : ∀ o ∈ outputs, ∃ row ∈ o.rows, ∀ x ∈ row, x.isFinite = true := by
  match outputs with
  | a :: b :: rest =>
    have hpair : ∀ o ∈ b :: rest, Correlated a o := (List.pairwise_cons.mp h).1
    have hd : ∀ o ∈ b :: rest, a.size = o.size := fun o ho =>
      (hs a (by simp)).trans (hs o (by simp [ho])).symm
    refine List.forall_mem_cons.mpr ⟨?_, fun o ho => ?_⟩
    · exact ((hpair b (by simp)).finite_rows (hd b (by simp))).1
    · exact ((hpair o ho).finite_rows (hd o ho)).2

end Information

/-- A property that a result of arithmetic has only if its operands have it. -/
structure Strict (P : Single → Prop) : Prop where
  add : ∀ x y, P (x + y) → P x ∧ P y
  mul : ∀ x y, P (x * y) → P y

/-- What a finite output says about the number that went through the activation. -/
def Activation.Sound : Activation → Single → Prop
  | .identity, x => x.isFinite = true
  | .softmax, x => x.isNaN = false

theorem Activation.strict (a : Activation) : Strict a.Sound := by
  cases a with
  | identity =>
    exact ⟨fun _ _ h => Binary.isFinite_of_add h, fun _ _ h => (Binary.isFinite_of_mul h).2⟩
  | softmax =>
    refine ⟨fun x y h => ?_, fun x y h => ?_⟩ <;>
      cases x <;> cases y <;> first | exact ⟨rfl, rfl⟩ | rfl | cases h

theorem Activation.unsound {a : Activation} {x : Single}
    (h : x.isNaN = true ∨ a = .identity ∧ x.isFinite = false) : ¬a.Sound x := by
  intro hs
  rcases h with hn | ⟨rfl, hi⟩
  · cases x with
    | nan => cases a <;> cases hs
    | number _ _ => cases hn
  · have hfin : x.isFinite = true := hs
    rw [hfin] at hi
    cases hi

namespace Probe

theorem sound_of_activate {a : Activation} {row : List Single}
    (h : ∀ y ∈ activate a row, y.isFinite = true) : ∀ x ∈ row, a.Sound x := by
  cases a with
  | identity => exact h
  | softmax =>
    intro x hx
    have hmem := List.mem_map_of_mem (f := (· / Softmax.laneSum .zero (Softmax.exponentials row)))
      (List.mem_map_of_mem (f := fun x => (x - Softmax.greatest row).exp) hx)
    have hfin := h _ hmem
    cases x with
    | nan => cases hfin
    | number _ _ => rfl

variable {P : Single → Prop}

theorem strict_products {es : List (Single × List Single)} {sums : List Single} (hP : Strict P)
    (hl : ∀ e ∈ es, e.2.length = sums.length)
    (h : ∀ z ∈ es.foldl (fun sums e => List.zipWith (fun s w => s + e.1 * w) sums e.2) sums, P z) :
    (∀ s ∈ sums, P s) ∧ ∀ e ∈ es, ∀ w ∈ e.2, P w := by
  induction es generalizing sums with
  | nil => exact ⟨h, by simp⟩
  | cons e es ih =>
    have hlen : e.2.length = sums.length := hl e (by simp)
    have hnext : (List.zipWith (fun s w => s + e.1 * w) sums e.2).length = sums.length := by
      rw [List.length_zipWith, hlen, Nat.min_self]
    obtain ⟨hsums, hrest⟩ := ih (fun e' he' => by rw [hnext]; exact hl e' (by simp [he'])) h
    obtain ⟨hs, hw⟩ := forall_of_zipWith (g := fun s w => s + e.1 * w) hlen.symm (fun s w hsw =>
      ⟨(hP.add _ _ hsw).1, hP.mul _ _ (hP.add _ _ hsw).2⟩) hsums
    exact ⟨hs, List.forall_mem_cons.mpr ⟨hw, hrest⟩⟩

theorem sound_of_forwardRow {p : Probe} {row : List Single} (hl : row.length = p.inputs)
    (h : ∀ y ∈ p.forwardRow row, y.isFinite = true) :
    (∀ w ∈ p.weights.entries, p.activation.Sound w) ∧ ∀ b ∈ p.bias, p.activation.Sound b := by
  have hwidth : ∀ e ∈ row.zip p.weights.rows, e.2.length = p.weights.width := fun e he =>
    p.weights.length_row e.2 (List.of_mem_zip he).2
  have hproducts : (products p.weights.width row p.weights.rows).length = p.bias.length := by
    rw [p.length_bias]
    exact length_foldl_products _ _ (by simp) hwidth
  have hstrict := p.activation.strict
  obtain ⟨hp, hb⟩ := forall_of_zipWith hproducts hstrict.add (sound_of_activate h)
  obtain ⟨-, hw⟩ := strict_products hstrict (fun e he => by simpa using hwidth e he) hp
  obtain ⟨-, hrows⟩ := forall_of_zipWith (g := Prod.mk) (P := fun _ => True)
    (Q := fun ws : List Single => ∀ w ∈ ws, p.activation.Sound w) hl
    (fun _ _ hr => ⟨trivial, hr⟩) hw
  refine ⟨fun w hmem => ?_, hb⟩
  obtain ⟨r, hr, hwr⟩ := List.mem_flatten.mp hmem
  exact hrows r hr w hwr

end Probe

namespace Params

variable {P : Single → Prop}

theorem strict_combineTensors {g : Single → Single → Single} (hg : ∀ x y, P (g x y) → P y)
    {ps qs : List (Tensor Single)} (hl : ps.map Tensor.shape = qs.map Tensor.shape)
    (h : ∀ t ∈ combineTensors g ps qs hl, ∀ x ∈ t.entries, P x) :
    ∀ t ∈ qs, ∀ x ∈ t.entries, P x := by
  induction ps generalizing qs with
  | nil =>
    have hq : qs = [] := List.map_eq_nil_iff.mp hl.symm
    simp [hq]
  | cons p ps ih =>
    cases qs with
    | nil => simp
    | cons q qs =>
      obtain ⟨hshape, hrest⟩ := List.cons.inj hl
      have hlen : p.entries.length = q.entries.length := by
        rw [p.length_entries, q.length_entries, hshape]
      rw [combineTensors, List.forall_mem_cons] at h
      obtain ⟨-, hq⟩ := forall_of_zipWith (P := fun _ => True) hlen
        (fun x y hxy => ⟨trivial, hg x y hxy⟩) h.1
      exact List.forall_mem_cons.mpr ⟨hq, ih hrest h.2⟩

theorem strict_sub {p q m : Params Single} (hP : Strict P) (h : p.sub q = .ok m)
    (hm : ∀ t ∈ m.tensors, ∀ x ∈ t.entries, P x) : ∀ t ∈ q.tensors, ∀ x ∈ t.entries, P x := by
  unfold sub addScaled at h
  split at h
  · cases h
    exact strict_combineTensors (P := P) (g := fun x y => x + -Scalar.one * y)
      (fun x y hxy => hP.mul (-Scalar.one) y (hP.add x _ hxy).2) _ hm
  · cases h

end Params

namespace Information

variable {r : Information} {model : Params Single} {updates : List (Params Single)}

theorem sound_of_finite_row {u m : Params Single} {o : Matrix Single} (hs : model.sub u = .ok m)
    (hp : r.probe.obstacle? r.batch m.layout = none) (ho : r.probe.output? r.batch m = some o)
    (hrow : ∃ row ∈ o.rows, ∀ x ∈ row, x.isFinite = true) :
    ∀ x ∈ u.flatten, r.probe.activation.Sound x := by
  obtain ⟨w, b, loaded, output, ht, hl, hh, hf, -, hrows⟩ := Probe.output_of_no_obstacle hp
  have ha := (Probe.load_alike hl).activation
  rw [Probe.output?_eq hl hf] at ho
  cases ho
  obtain ⟨row, hmem, hfin⟩ := hrow
  rw [hrows] at hmem
  obtain ⟨input, hin, rfl⟩ := List.mem_map.mp hmem
  have hwidth : input.length = loaded.inputs := by
    rw [r.batch.length_row input hin]
    unfold Probe.forward at hf
    split at hf
    · assumption
    · cases hf
  obtain ⟨hw, hb⟩ := Probe.sound_of_forwardRow hwidth hfin
  rw [hh.weights] at hw
  rw [hh.bias] at hb
  rw [← ha] at hw hb
  have hm : ∀ t ∈ m.tensors, ∀ x ∈ t.entries, r.probe.activation.Sound x := by
    rw [ht]
    simpa using ⟨hw, hb⟩
  intro x hx
  obtain ⟨t, htm, hxt⟩ := List.mem_flatMap.mp hx
  exact Params.strict_sub r.probe.activation.strict hs hm t htm x hxt

theorem sound_of_correlated (hl : ∀ u ∈ updates, u.layout = model.layout)
    (hp : r.probe.obstacle? r.batch model.layout = none) (hlen : 2 ≤ updates.length)
    (hc : (r.outputs model updates).Pairwise Correlated) :
    ∀ u ∈ updates, ∀ x ∈ u.flatten, r.probe.activation.Sound x := by
  obtain ⟨-, hcount, hsize⟩ := clientTable_of_no_obstacle hl hp
  have hrows := finite_of_pairwise hc hsize (by omega)
  intro u hu
  obtain ⟨m, hs, hm⟩ := Params.addScaled_exists (-Scalar.one) (hl u hu).symm
  rw [← hm] at hp
  obtain ⟨-, -, loaded, o, -, hload, -, hf, -, -⟩ := Probe.output_of_no_obstacle hp
  have ho := Probe.output?_eq hload hf
  have hsub : (model.sub u).toOption = some m := congrArg Except.toOption hs
  have harrived : m ∈ arrived model updates := List.mem_filterMap.mpr ⟨u, hu, hsub⟩
  exact sound_of_finite_row hs hp ho (hrows o (List.mem_filterMap.mpr ⟨m, harrived, ho⟩))

/-- A round of two or more updates fails if one of them has an invalid entry, or an infinite one
with the identity as activation. -/
theorem round_of_unsound (r : Information) (state : State Single) (updates : List (Params Single))
    (hlen : 2 ≤ updates.length) (hl : ∀ u ∈ updates, u.layout = state.model.layout)
    (hp : r.probe.obstacle? r.batch state.model.layout = none)
    (h : ∃ u ∈ updates, ∃ x ∈ u.flatten,
      x.isNaN = true ∨ r.probe.activation = .identity ∧ x.isFinite = false) :
    (r.round state updates).2.result = .error (.statistics .constantOutputs) := by
  have hne : updates ≠ [] := by
    rw [← List.length_pos_iff]
    omega
  refine round_of_uncorrelated (Average.obstacle?_eq_none_iff.mpr ⟨hne, hl⟩) hp fun hc => ?_
  obtain ⟨u, hu, x, hx, hbad⟩ := h
  exact Activation.unsound hbad (sound_of_correlated hl hp hlen hc u hu x hx)

def weighing (x : Single) : Params Single := ⟨[.ofMatrix (.constant 1 1 x), .vector [.zero]]⟩

theorem round_of_unsound_weight :
    ((narrow .zero).round (.fresh (weighing .zero))
      [weighing .zero, weighing (.infinity true)]).2.result
        = .error (.statistics .constantOutputs) ∧
    (({ narrow .zero with probe := .zeros 1 1 .softmax } : Information).round
      (.fresh (weighing .zero)) [weighing .nan, weighing .zero]).2.result
        = .error (.statistics .constantOutputs) := by
  constructor
  · exact round_of_unsound (narrow .zero) (.fresh (weighing .zero))
      [weighing .zero, weighing (.infinity true)] (by decide) (by decide)
      (by decide) ⟨weighing (.infinity true), by simp, .infinity true, by decide,
        Or.inr ⟨rfl, by decide⟩⟩
  · exact round_of_unsound { narrow .zero with probe := .zeros 1 1 .softmax }
      (.fresh (weighing .zero)) [weighing .nan, weighing .zero] (by decide) (by decide)
      (by decide) ⟨weighing .nan, by simp, .nan, by decide, Or.inl rfl⟩

end Information

end Federation
