import Federation.Proofs.Layout

/-!
# Coordinates

The entries of all tensors, one after the other, are the coordinates of parameters. Arithmetic goes
coordinate by coordinate: it mixes no two of them, and it does not see where one tensor ends and the
next begins.
-/

set_option autoImplicit false

namespace Federation

variable {α : Type}

theorem Tensor.eq_of_entries {s t : Tensor α} (hs : s.shape = t.shape)
    (he : s.entries = t.entries) : s = t := by
  cases s
  cases t
  cases hs
  cases he
  rfl

namespace Params

theorem length_flatten_of_layout {p q : Params α} (h : p.layout = q.layout) :
    p.flatten.length = q.flatten.length := by
  have hlength : ∀ r : Params α, r.flatten.length = (r.layout.map Shape.volume).sum := by
    intro r
    simp [flatten, layout, List.length_flatMap, Tensor.length_entries, Function.comp_def]
  rw [hlength, hlength, h]

theorem flatten_map (g : α → α) (p : Params α) : (p.map g).flatten = p.flatten.map g := by
  simp [flatten, map, Tensor.map, List.flatMap_map, List.map_flatMap]

theorem flatten_combineTensors (g : α → α → α) (ps qs : List (Tensor α))
    (h : ps.map Tensor.shape = qs.map Tensor.shape) :
    (combineTensors g ps qs h).flatMap Tensor.entries
      = List.zipWith g (ps.flatMap Tensor.entries) (qs.flatMap Tensor.entries) := by
  induction ps generalizing qs with
  | nil => rfl
  | cons p ps ih =>
    cases qs with
    | nil => simp at h
    | cons q qs =>
      have hl : p.entries.length = q.entries.length := by
        rw [p.length_entries, q.length_entries, (List.cons.inj h).1]
      rw [combineTensors, List.flatMap_cons, List.flatMap_cons, List.flatMap_cons,
        List.zipWith_append hl, ih]
      rfl

theorem flatten_combine (g : α → α → α) (p q : Params α) (h : p.layout = q.layout) :
    (p.combine g q h).flatten = List.zipWith g p.flatten q.flatten :=
  flatten_combineTensors g p.tensors q.tensors h

theorem tensors_eq_of_entries {ps qs : List (Tensor α)}
    (hs : ps.map Tensor.shape = qs.map Tensor.shape)
    (he : ps.flatMap Tensor.entries = qs.flatMap Tensor.entries) : ps = qs := by
  induction ps generalizing qs with
  | nil => exact (List.map_eq_nil_iff.mp hs.symm).symm
  | cons p ps ih =>
    cases qs with
    | nil => cases hs
    | cons q qs =>
      obtain ⟨hshape, hshapes⟩ := List.cons.inj hs
      have hl : p.entries.length = q.entries.length := by
        rw [p.length_entries, q.length_entries, hshape]
      rw [List.flatMap_cons, List.flatMap_cons] at he
      obtain ⟨hentries, hrest⟩ := List.append_inj he hl
      rw [Tensor.eq_of_entries hshape hentries, ih hshapes hrest]

/-- Parameters are their layout and their coordinates. -/
theorem eq_of_flatten {p q : Params α} (hl : p.layout = q.layout)
    (hf : p.flatten = q.flatten) : p = q := by
  obtain ⟨ps⟩ := p
  obtain ⟨qs⟩ := q
  exact congrArg Params.mk (tensors_eq_of_entries hl hf)

variable [Scalar α] {p q sum : Params α} {factor : α}

theorem flatten_zeros (p : Params α) : p.zeros.flatten = p.flatten.map fun _ => Scalar.zero :=
  flatten_map _ p

theorem flatten_scale (factor : α) (p : Params α) :
    (p.scale factor).flatten = p.flatten.map (· * factor) :=
  flatten_map _ p

theorem flatten_addScaled (h : p.addScaled factor q = .ok sum) :
    sum.flatten = List.zipWith (fun x y => x + factor * y) p.flatten q.flatten := by
  unfold addScaled at h
  split at h
  · cases h
    exact flatten_combine _ p q _
  · cases h

end Params

namespace State

variable [Scalar α] {s next : State α} {direction : Params α} {beta rate : α}

theorem flatten_nesterov (h : s.nesterov direction beta rate = .ok next) :
    next.momentum.flatten = List.zipWith (fun m d => m + -rate * d)
      (s.momentum.flatten.map (· * beta)) direction.flatten ∧
    next.model.flatten = List.zipWith (fun x m => x + (Scalar.one + beta) * m)
      (List.zipWith (fun x m => x + -beta * m) s.model.flatten s.momentum.flatten)
      next.momentum.flatten := by
  simp only [nesterov, except_bind_ok_iff] at h
  obtain ⟨momentum, hm, behind, hb, model, hx, h⟩ := h
  cases h
  constructor
  · rw [Params.flatten_addScaled hm, Params.flatten_scale]
  · rw [Params.flatten_addScaled hx, Params.flatten_addScaled hb]

end State

end Federation
