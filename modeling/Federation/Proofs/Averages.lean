import Federation.Proofs.Layout

/-!
# Averages of selected updates

An average reads the selected updates and nothing else, in the order of their indices. Updates of
one layout have an average as soon as one of them is selected.
-/

set_option autoImplicit false

namespace Federation

variable {α : Type}

namespace Average

/-- The updates at the given indices, in the order of the indices. -/
def chosen (updates : List (Params α)) (indices : List Nat) : List (Params α) :=
  indices.filterMap fun i => updates[i]?

theorem chosen_cons {updates : List (Params α)} {i : Nat} {u : Params α} {rest : List Nat}
    (h : updates[i]? = some u) : chosen updates (i :: rest) = u :: chosen updates rest :=
  List.filterMap_cons_some h

theorem mem_of_mem_chosen {updates : List (Params α)} {indices : List Nat} {u : Params α}
    (h : u ∈ chosen updates indices) : u ∈ updates := by
  obtain ⟨i, -, hi⟩ := List.mem_filterMap.mp h
  exact List.mem_of_getElem? hi

theorem length_chosen {updates : List (Params α)} {indices : List Nat}
    (h : ∀ i ∈ indices, i < updates.length) : (chosen updates indices).length = indices.length := by
  induction indices with
  | nil => rfl
  | cons i rest ih =>
    rw [chosen_cons (List.getElem?_eq_getElem (h i (by simp))), List.length_cons, List.length_cons,
      ih fun j hj => h j (by simp [hj])]

theorem getElem?_chosen {updates : List (Params α)} {indices : List Nat}
    (h : ∀ i ∈ indices, i < updates.length) (place : Nat) :
    (chosen updates indices)[place]? = indices[place]?.bind (updates[·]?) := by
  induction indices generalizing place with
  | nil => rfl
  | cons i rest ih =>
    have hi := List.getElem?_eq_getElem (h i (by simp))
    rw [chosen_cons hi]
    cases place with
    | zero => simp [hi]
    | succ place => simpa using ih (fun j hj => h j (by simp [hj])) place

theorem chosen_range (updates : List (Params α)) :
    chosen updates (List.range updates.length) = updates := by
  have hlt : ∀ i ∈ List.range updates.length, i < updates.length := fun i hi =>
    List.mem_range.mp hi
  apply List.ext_getElem
  · rw [length_chosen hlt, List.length_range]
  · intro i hi hi'
    have hat := getElem?_chosen hlt i
    rw [List.getElem?_range hi', Option.bind_some, List.getElem?_eq_getElem hi,
      List.getElem?_eq_getElem hi'] at hat
    exact Option.some.inj hat

variable [Scalar α]

def ofList : List (Params α) → Except Fault (Params α)
  | [] => .error .emptySelection
  | first :: rest => do
    let sum ← (first :: rest).foldlM (fun sum u => sum.addScaled Scalar.one u) first.zeros
    return sum.scale (Scalar.one / Scalar.ofNat (first :: rest).length)

theorem accumulate_eq {updates : List (Params α)} {indices : List Nat} (start : Params α)
    (h : ∀ i ∈ indices, i < updates.length) :
    accumulate updates start indices
      = (chosen updates indices).foldlM (fun sum u => sum.addScaled Scalar.one u) start := by
  induction indices generalizing start with
  | nil => rfl
  | cons i rest ih =>
    have hi := List.getElem?_eq_getElem (h i (by simp))
    have hf := fetch_ok_iff.mpr hi
    have hrest : ∀ next, accumulate updates next rest
        = (chosen updates rest).foldlM (fun sum u => sum.addScaled Scalar.one u) next :=
      fun next => ih next fun j hj => h j (by simp [hj])
    rw [chosen_cons hi, List.foldlM_cons, accumulate, List.foldlM_cons, hf]
    exact bind_congr hrest

/-- Nothing but the chosen updates enters an average. -/
theorem selected_eq {updates : List (Params α)} {indices : List Nat}
    (h : ∀ i ∈ indices, i < updates.length) :
    selected updates indices = ofList (chosen updates indices) := by
  cases indices with
  | nil => rfl
  | cons i rest =>
    have hi := List.getElem?_eq_getElem (h i (by simp))
    have hf := fetch_ok_iff.mpr hi
    have hl := length_chosen h
    have ha := fun start => accumulate_eq (α := α) start h
    rw [chosen_cons hi] at hl ha ⊢
    simp only [selected, ofList, hf, ha, hl]
    rfl

theorem ofUpdates_eq {updates : List (Params α)} {first : Params α} (hne : updates ≠ [])
    (h : ∀ u ∈ updates, u.layout = first.layout) : ofUpdates updates none = ofList updates := by
  cases updates with
  | nil => exact absurd rfl hne
  | cons u us =>
    rw [ofUpdates, check_first fun v hv => (h v hv).trans (h u (by simp)).symm, except_bind_ok]
    show selected (u :: us) (List.range (u :: us).length) = _
    rw [selected_eq fun i hi => List.mem_range.mp hi, chosen_range]

def combination (start : Params α) (terms : List (α × Params α)) : Except Fault (Params α) :=
  terms.foldlM (fun sum t => Params.addScaled sum t.1 t.2) start

theorem combination_exists {layout : List Shape} {terms : List (α × Params α)} {start : Params α}
    (h : ∀ t ∈ terms, t.2.layout = layout) (hs : start.layout = layout) :
    ∃ sum, combination start terms = .ok sum ∧ sum.layout = layout := by
  induction terms generalizing start with
  | nil => exact ⟨start, rfl, hs⟩
  | cons t terms ih =>
    obtain ⟨next, hn, hl⟩ := Params.addScaled_exists t.1 (hs.trans (h t (by simp)).symm)
    obtain ⟨sum, hsum, hls⟩ := ih (fun v hv => h v (by simp [hv])) (hl.trans hs)
    refine ⟨sum, ?_, hls⟩
    rw [combination, List.foldlM_cons, hn]
    exact hsum

theorem sum_eq_combination (us : List (Params α)) (start : Params α) :
    us.foldlM (fun sum u => Params.addScaled sum Scalar.one u) start
      = combination start (us.map fun u => (Scalar.one, u)) := by
  rw [combination, List.foldlM_map]

theorem sum_exists {layout : List Shape} {us : List (Params α)} {start : Params α}
    (h : ∀ u ∈ us, u.layout = layout) (hs : start.layout = layout) :
    ∃ sum, us.foldlM (fun sum u => Params.addScaled sum Scalar.one u) start = .ok sum ∧
      sum.layout = layout := by
  rw [sum_eq_combination]
  exact combination_exists (by simpa using h) hs

theorem ofList_exists {layout : List Shape} {us : List (Params α)} (hne : us ≠ [])
    (h : ∀ u ∈ us, u.layout = layout) : ∃ mean, ofList us = .ok mean ∧ mean.layout = layout := by
  cases us with
  | nil => exact absurd rfl hne
  | cons first rest =>
    obtain ⟨sum, hsum, hl⟩ := sum_exists h ((Params.layout_zeros first).trans (h first (by simp)))
    refine ⟨_, by rw [ofList, hsum]; rfl, ?_⟩
    rw [Params.layout_scale, hl]

theorem selected_exists {layout : List Shape} {updates : List (Params α)} {indices : List Nat}
    (hne : indices ≠ []) (hi : ∀ i ∈ indices, i < updates.length)
    (h : ∀ u ∈ updates, u.layout = layout) :
    ∃ mean, selected updates indices = .ok mean ∧ mean.layout = layout := by
  rw [selected_eq hi]
  refine ofList_exists ?_ fun u hu => h u (mem_of_mem_chosen hu)
  rw [← List.length_pos_iff, length_chosen hi]
  exact List.length_pos_iff.mpr hne

end Average

end Federation
