import Federation.Proofs.Rounds

/-!
# Layouts

Arithmetic never changes a layout. It combines parameters of one layout only, so a round that
succeeds has kept the layout of the model and of the momentum, whatever the rule.
-/

set_option autoImplicit false

namespace Federation

variable {α : Type}

namespace Params

theorem layout_map (g : α → α) (p : Params α) : (p.map g).layout = p.layout := by
  simp [map, layout, Tensor.map, Function.comp_def]

theorem combineTensors_shapes (g : α → α → α) (ps qs : List (Tensor α))
    (h : ps.map Tensor.shape = qs.map Tensor.shape) :
    (combineTensors g ps qs h).map Tensor.shape = ps.map Tensor.shape := by
  induction ps generalizing qs with
  | nil => rfl
  | cons p ps ih =>
    cases qs with
    | nil => simp at h
    | cons q qs =>
      simp only [combineTensors, List.map_cons]
      rw [ih]
      rfl

theorem layout_combine (g : α → α → α) (p q : Params α) (h : p.layout = q.layout) :
    (p.combine g q h).layout = p.layout :=
  combineTensors_shapes g p.tensors q.tensors h

variable [Scalar α]

theorem layout_zeros (p : Params α) : p.zeros.layout = p.layout := layout_map _ p

theorem layout_scale (factor : α) (p : Params α) : (p.scale factor).layout = p.layout :=
  layout_map _ p

theorem addScaled_exists {p q : Params α} (factor : α) (h : p.layout = q.layout) :
    ∃ sum, p.addScaled factor q = .ok sum ∧ sum.layout = p.layout :=
  ⟨_, dif_pos h, layout_combine _ p q h⟩

theorem addScaled_layout {p q sum : Params α} {factor : α}
    (h : p.addScaled factor q = .ok sum) : p.layout = q.layout ∧ sum.layout = p.layout := by
  unfold addScaled at h
  split at h
  · rename_i hl
    cases h
    exact ⟨hl, layout_combine _ p q hl⟩
  · cases h

end Params

namespace Average

theorem check_ok_iff {model : Params α} {updates : List (Params α)} :
    check model updates = .ok () ↔ updates ≠ [] ∧ ∀ u ∈ updates, u.layout = model.layout := by
  unfold check
  cases updates with
  | nil => simp
  | cons first rest =>
    cases h : (first :: rest).findIdx? fun u => decide (u.layout ≠ model.layout) with
    | none =>
      have hn := List.findIdx?_eq_none_iff.mp h
      simpa using hn
    | some client =>
      have hs := List.findIdx?_eq_some_iff_getElem.mp h
      obtain ⟨hl, hd, -⟩ := hs
      simp only [List.isEmpty_cons, Bool.false_eq_true, if_false, reduceCtorEq, false_iff]
      intro hw
      exact of_decide_eq_true hd (hw.2 _ (List.getElem_mem hl))

theorem check_first {first : Params α} {rest : List (Params α)}
    (h : ∀ u ∈ first :: rest, u.layout = first.layout) : check first (first :: rest) = .ok () :=
  check_ok_iff.mpr ⟨by simp, h⟩

theorem fetch_ok_iff {updates : List (Params α)} {i : Nat} {u : Params α} :
    fetch updates i = .ok u ↔ updates[i]? = some u := by
  unfold fetch
  cases updates[i]? <;> simp

variable [Scalar α]

theorem accumulate_layout {updates : List (Params α)} {start sum : Params α} {indices : List Nat}
    (h : accumulate updates start indices = .ok sum) : sum.layout = start.layout := by
  induction indices generalizing start with
  | nil => cases h; rfl
  | cons i rest ih =>
    unfold accumulate at h
    rw [List.foldlM_cons, except_bind_ok_iff] at h
    obtain ⟨next, hn, h⟩ := h
    obtain ⟨u, -, ha⟩ := except_bind_ok_iff.mp hn
    rw [ih h, (Params.addScaled_layout ha).2]

theorem selected_layout {updates : List (Params α)} {indices : List Nat} {mean : Params α}
    (h : selected updates indices = .ok mean) :
    indices ≠ [] ∧ ∃ u ∈ updates, mean.layout = u.layout := by
  cases indices with
  | nil => cases h
  | cons first rest =>
    simp only [selected, except_bind_ok_iff] at h
    obtain ⟨pattern, hp, sum, hs, h⟩ := h
    cases h
    refine ⟨by simp, pattern, List.mem_of_getElem? (fetch_ok_iff.mp hp), ?_⟩
    rw [Params.layout_scale, accumulate_layout hs, Params.layout_zeros]

end Average

namespace State

variable [Scalar α]

theorem nesterov_layout {s next : State α} {direction : Params α} {beta rate : α}
    (h : s.nesterov direction beta rate = .ok next) :
    s.model.layout = s.momentum.layout ∧ s.momentum.layout = direction.layout ∧
      next.model.layout = s.model.layout ∧ next.momentum.layout = s.momentum.layout := by
  simp only [nesterov, except_bind_ok_iff] at h
  obtain ⟨momentum, hm, behind, hb, model, hx, h⟩ := h
  cases h
  obtain ⟨hd, hm⟩ := Params.addScaled_layout hm
  obtain ⟨hs, hb⟩ := Params.addScaled_layout hb
  obtain ⟨-, hx⟩ := Params.addScaled_layout hx
  rw [Params.layout_scale] at hd hm
  exact ⟨hs, hd, hx.trans hb, hm⟩

theorem nesterov_exists {s : State α} {direction : Params α} (beta rate : α)
    (hm : s.momentum.layout = s.model.layout) (h : direction.layout = s.model.layout) :
    ∃ next, s.nesterov direction beta rate = .ok next := by
  have hs := Params.layout_scale beta s.momentum
  obtain ⟨momentum, hok, hl⟩ := Params.addScaled_exists (-rate)
    (show (s.momentum.scale beta).layout = direction.layout by rw [hs, hm, h])
  obtain ⟨behind, hbehind, hb⟩ := Params.addScaled_exists (-beta) hm.symm
  obtain ⟨model, hmodel, -⟩ := Params.addScaled_exists (Scalar.one + beta)
    (show behind.layout = momentum.layout by rw [hb, hl, hs, hm])
  refine ⟨⟨model, momentum⟩, ?_⟩
  rw [nesterov, hok, except_bind_ok, hbehind, except_bind_ok, hmodel]
  rfl

end State

end Federation
