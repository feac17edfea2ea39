import Federation.Proofs.Exact
import Federation.Proofs.Momentum
import Federation.Proofs.Outcomes
import Mathlib.Algebra.BigOperators.Ring.List

/-!
# Means

A mean of updates is refused for one of four causes, looked for in a fixed order. In exact
arithmetic a mean that is not refused is the one that its name promises, with weights and without:
every coordinate is the weighted sum over the sum of the weights. What the two ways of computing it
have in common follows from this alone.
-/

set_option autoImplicit false

namespace Federation

namespace Average

section Refusals

variable {α : Type} [Scalar α]

/-- Why updates with or without weights have no mean. Each cause supposes that those before it are
not there. -/
inductive Refuses : List (Params α) → Option (List α) → Fault → Prop where
  | empty (weights : Option (List α)) : Refuses [] weights .emptyUpdates
  | layout {first u : Params α} {rest : List (Params α)} {client : Nat}
      (weights : Option (List α)) (hu : (first :: rest)[client]? = some u)
      (hl : u.layout ≠ first.layout)
      (hleast : ∀ i < client, ∀ v, (first :: rest)[i]? = some v → v.layout = first.layout) :
      Refuses (first :: rest) weights (.shapeMismatch client)
  | count {first : Params α} {rest : List (Params α)} {ws : List α}
      (hl : ∀ u ∈ first :: rest, u.layout = first.layout)
      (hn : ws.length ≠ (first :: rest).length) :
      Refuses (first :: rest) (some ws)
        (.shape (.weightCount ws.length (first :: rest).length))
  | total {first : Params α} {rest : List (Params α)} {ws : List α}
      (hl : ∀ u ∈ first :: rest, u.layout = first.layout)
      (hn : ws.length = (first :: rest).length)
      (hz : Scalar.eq (Scalar.sum ws) Scalar.zero = true) :
      Refuses (first :: rest) (some ws) .emptySelection

variable {first : Params α} {rest updates : List (Params α)} {ws : List α}
  {weights : Option (List α)} {fault : Fault}

theorem Refuses.error (h : Refuses updates weights fault) :
    ofUpdates updates weights = .error fault := by
  cases h with
  | empty => rfl
  | layout _ hu hl hleast =>
    show (check _ _ >>= _) = _
    rw [check_eq, obstacle?, if_neg (by simp),
      misfit?_eq_some_iff.mpr ⟨⟨_, hu, hl⟩, hleast⟩]
    rfl
  | count hl hn =>
    rw [ofUpdates, check_first hl, except_bind_ok]
    exact if_pos hn
  | total hl hn hz =>
    rw [ofUpdates, check_first hl, except_bind_ok]
    show weighted _ _ _ = _
    rw [weighted, if_neg (by simpa using hn)]
    exact if_pos hz

def terms (updates : List (Params α)) (ws : List α) : List (α × Params α) :=
  (updates.zip ws).map fun e => (e.2 / Scalar.sum ws, e.1)

omit [Scalar α] in
theorem layout_of_mem_zip {layout : List Shape} {e : Params α × α}
    (hl : ∀ u ∈ updates, u.layout = layout) (he : e ∈ updates.zip ws) : e.1.layout = layout :=
  hl e.1 (List.of_mem_zip he).1

theorem layout_of_mem_terms {layout : List Shape} {t : α × Params α}
    (hl : ∀ u ∈ updates, u.layout = layout) (ht : t ∈ terms updates ws) : t.2.layout = layout := by
  obtain ⟨e, he, rfl⟩ := List.mem_map.mp ht
  exact layout_of_mem_zip hl he

theorem weighted_eq (hn : ws.length = updates.length)
    (hz : Scalar.eq (Scalar.sum ws) Scalar.zero ≠ true) :
    weighted first updates ws = combination first.zeros (terms updates ws) := by
  rw [weighted, if_neg (by simpa using hn), combination, terms, List.foldlM_map]
  exact if_neg hz

/-- A mean that is not refused is computed, in one of two ways. -/
inductive Computes : List (Params α) → Option (List α) → Params α → Prop where
  | weighted {first mean : Params α} {rest : List (Params α)} {ws : List α}
      (hl : ∀ u ∈ first :: rest, u.layout = first.layout)
      (hn : ws.length = (first :: rest).length)
      (hz : Scalar.eq (Scalar.sum ws) Scalar.zero ≠ true)
      (hsum : combination first.zeros (terms (first :: rest) ws) = .ok mean) :
      Computes (first :: rest) (some ws) mean
  | plain {first sum : Params α} {rest : List (Params α)}
      (hl : ∀ u ∈ first :: rest, u.layout = first.layout)
      (hsum : combination first.zeros ((first :: rest).map fun u => (Scalar.one, u)) = .ok sum) :
      Computes (first :: rest) none
        (sum.scale (Scalar.one / Scalar.ofNat (first :: rest).length))

theorem Computes.ok {mean : Params α} (h : Computes updates weights mean) :
    ofUpdates updates weights = .ok mean := by
  cases h with
  | weighted hl hn hz hsum =>
    rw [ofUpdates, check_first hl, except_bind_ok]
    exact (weighted_eq hn hz).trans hsum
  | plain hl hsum =>
    rw [ofUpdates_eq (by simp) hl, ofList, sum_eq_combination, hsum]
    rfl

theorem refused_or_computed (updates : List (Params α)) (weights : Option (List α)) :
    (∃ fault, Refuses updates weights fault) ∨ ∃ mean, Computes updates weights mean := by
  cases updates with
  | nil => exact .inl ⟨_, .empty weights⟩
  | cons first rest =>
    cases hm : misfit? first (first :: rest) with
    | some client =>
      obtain ⟨⟨u, hu, hl⟩, hleast⟩ := misfit?_eq_some_iff.mp hm
      exact .inl ⟨_, .layout weights hu hl hleast⟩
    | none =>
      have hl := misfit?_eq_none_iff.mp hm
      have hstart : first.zeros.layout = first.layout := Params.layout_zeros first
      cases weights with
      | none =>
        have hones : ∀ t ∈ (first :: rest).map fun u => ((Scalar.one : α), u),
            t.2.layout = first.layout := by simpa using hl
        obtain ⟨sum, hsum, -⟩ := combination_exists hones hstart
        exact .inr ⟨_, .plain hl hsum⟩
      | some ws =>
        by_cases hn : ws.length = (first :: rest).length
        · by_cases hz : Scalar.eq (Scalar.sum ws) Scalar.zero = true
          · exact .inl ⟨_, .total hl hn hz⟩
          · obtain ⟨sum, hsum, -⟩ := combination_exists (fun t => layout_of_mem_terms hl) hstart
            exact .inr ⟨sum, .weighted hl hn hz hsum⟩
        · exact .inl ⟨_, .count hl hn⟩

theorem ofUpdates_error_iff :
    ofUpdates updates weights = .error fault ↔ Refuses updates weights fault := by
  constructor
  · intro h
    obtain ⟨other, ho⟩ | ⟨mean, hm⟩ := refused_or_computed updates weights
    · rw [ho.error] at h
      cases h
      exact ho
    · rw [hm.ok] at h
      cases h
  · exact Refuses.error

theorem ofUpdates_ok_iff {mean : Params α} :
    ofUpdates updates weights = .ok mean ↔ Computes updates weights mean := by
  constructor
  · intro h
    obtain ⟨fault, hf⟩ | ⟨other, ho⟩ := refused_or_computed updates weights
    · rw [hf.error] at h
      cases h
    · rw [ho.ok] at h
      cases h
      exact ho
  · exact Computes.ok

end Refusals

end Average

namespace Params

theorem coordinate_zeros (p : Params Rat) (k : Nat) : p.zeros.coordinate k = 0 := by
  unfold coordinate
  rw [flatten_zeros]
  by_cases hk : k < p.flatten.length
  · simp [hk]
  · simp [Nat.le_of_not_lt hk]

theorem eq_of_coordinates {p q : Params Rat} (hl : p.layout = q.layout)
    (h : ∀ k, p.coordinate k = q.coordinate k) : p = q := by
  apply eq_of_flatten hl
  apply List.ext_getElem (length_flatten_of_layout hl)
  intro k hk hk'
  simpa [coordinate, hk, hk'] using h k

end Params

namespace Average

theorem coordinate_combination {terms : List (Rat × Params Rat)} {start sum : Params Rat}
    (h : combination start terms = .ok sum) (k : Nat) :
    sum.coordinate k = start.coordinate k + (terms.map fun t => t.1 * t.2.coordinate k).sum := by
  induction terms generalizing start with
  | nil =>
    cases h
    simp
  | cons t terms ih =>
    rw [combination, List.foldlM_cons, except_bind_ok_iff] at h
    obtain ⟨next, hn, h⟩ := h
    rw [ih h, Params.coordinate_addScaled hn, List.map_cons, List.sum_cons, add_assoc]

def weighed (updates : List (Params Rat)) : Option (List Rat) → List (Params Rat × Rat)
  | some ws => updates.zip ws
  | none => updates.map fun u => (u, 1)

variable {updates updates' : List (Params Rat)} {weights weights' : Option (List Rat)}
  {mean : Params Rat}

def Matched (updates : List (Params Rat)) (weights : Option (List Rat)) : Prop :=
  ∀ ws, weights = some ws → ws.length = updates.length

theorem matched_none (updates : List (Params Rat)) : Matched updates none := fun _ h => by cases h

theorem matched_some {ws : List Rat} (h : ws.length = updates.length) :
    Matched updates (some ws) := fun _ hws => Option.some.inj hws ▸ h

theorem total_some {ws : List Rat} (h : ws.length = updates.length) :
    (weighed updates (some ws)).map Prod.snd = ws := List.map_snd_zip h.le

theorem total_none (updates : List (Params Rat)) :
    ((weighed updates none).map Prod.snd).sum = updates.length := by
  simp [weighed, Function.comp_def]

/-- The weighted mean, coordinate by coordinate. -/
structure IsMean (pairs : List (Params Rat × Rat)) (mean : Params Rat) : Prop where
  layout : ∀ e ∈ pairs, e.1.layout = mean.layout
  coordinate : ∀ k, mean.coordinate k
    = (pairs.map fun e => e.2 * e.1.coordinate k).sum / (pairs.map Prod.snd).sum

namespace IsMean

variable {pairs pairs' : List (Params Rat × Rat)} {mean' v : Params Rat}

theorem unique (hne : pairs ≠ []) (h : IsMean pairs mean) (h' : IsMean pairs mean') :
    mean = mean' := by
  obtain ⟨e, he⟩ := List.exists_mem_of_ne_nil pairs hne
  apply Params.eq_of_coordinates
  · rw [← h.layout e he, h'.layout e he]
  · intro k
    rw [h.coordinate, h'.coordinate]

theorem perm (h : IsMean pairs mean) (hp : pairs.Perm pairs') : IsMean pairs' mean where
  layout := fun e he => h.layout e (hp.mem_iff.mpr he)
  coordinate := by
    intro k
    rw [h.coordinate, (hp.map _).sum_eq, (hp.map Prod.snd).sum_eq]

theorem scaled {c : Rat} (hc : c ≠ 0) (h : IsMean pairs mean) :
    IsMean (pairs.map fun e => (e.1, c * e.2)) mean where
  layout := by
    intro e he
    obtain ⟨pair, hpair, rfl⟩ := List.mem_map.mp he
    exact h.layout pair hpair
  coordinate := by
    intro k
    simp only [h.coordinate, List.map_map, Function.comp_def, mul_assoc, List.sum_map_mul_left]
    rw [mul_div_mul_left _ _ hc]

theorem of_identical (hv : ∀ e ∈ pairs, e.1 = v) (ht : (pairs.map Prod.snd).sum ≠ 0) :
    IsMean pairs v where
  layout := fun e he => congrArg Params.layout (hv e he)
  coordinate := by
    intro k
    have hterm : pairs.map (fun e => e.2 * e.1.coordinate k)
        = pairs.map fun e => e.2 * v.coordinate k :=
      List.map_congr_left fun e he => by rw [hv e he]
    rw [hterm, List.sum_map_mul_right, mul_comm, mul_div_cancel_right₀ _ ht]

end IsMean

theorem combination_layout {first sum : Params Rat} {terms : List (Rat × Params Rat)}
    (h : ∀ t ∈ terms, t.2.layout = first.layout)
    (hsum : combination first.zeros terms = .ok sum) : sum.layout = first.layout := by
  obtain ⟨other, ho, hl⟩ := combination_exists h (Params.layout_zeros first)
  rw [hsum] at ho
  cases ho
  exact hl

theorem Computes.isMean (h : Computes updates weights mean) :
    IsMean (weighed updates weights) mean := by
  cases h with
  | @weighted first _ rest ws hl hn hz hsum =>
    have hlayout := combination_layout (fun t => layout_of_mem_terms hl) hsum
    constructor
    · intro e he
      rw [hlayout, layout_of_mem_zip hl he]
    · intro k
      rw [coordinate_combination hsum, Params.coordinate_zeros, zero_add, terms, List.map_map,
        total_some hn, weighed, Scalar.sum_rat, div_eq_mul_inv, ← List.sum_map_mul_right]
      simp only [Function.comp_def, div_eq_mul_inv, mul_right_comm]
  | @plain first sum rest hl hsum =>
    have hlayout := combination_layout (by simpa using hl) hsum
    constructor
    · intro e he
      obtain ⟨u, hu, rfl⟩ := List.mem_map.mp he
      rw [Params.layout_scale, hlayout, hl u hu]
    · intro k
      rw [Params.coordinate_scale, coordinate_combination hsum, Params.coordinate_zeros, zero_add,
        total_none, weighed, List.map_map, List.map_map]
      simp only [Function.comp_def, Scalar.one_rat, Scalar.ofNat_rat, mul_one_div]

theorem map_fst_weighed (hm : Matched updates weights) :
    (weighed updates weights).map Prod.fst = updates := by
  cases weights with
  | none => simp [weighed, Function.comp_def]
  | some ws => exact List.map_fst_zip (hm ws rfl).ge

theorem IsMean.layout_eq (hm : Matched updates weights)
    (h : IsMean (weighed updates weights) mean) : ∀ u ∈ updates, mean.layout = u.layout := by
  intro u hu
  rw [← map_fst_weighed hm] at hu
  obtain ⟨e, he, rfl⟩ := List.mem_map.mp hu
  exact (h.layout e he).symm

theorem weighed_ne_nil (hne : updates ≠ []) (hm : Matched updates weights) :
    weighed updates weights ≠ [] := by
  intro h
  have hfst := map_fst_weighed hm
  rw [h] at hfst
  exact hne hfst.symm

theorem Computes.total_ne_zero (h : Computes updates weights mean) :
    ((weighed updates weights).map Prod.snd).sum ≠ 0 := by
  cases h with
  | weighted hl hn hz hsum =>
    rw [total_some hn]
    simpa using hz
  | plain hl hsum =>
    rw [total_none]
    exact Nat.cast_ne_zero.mpr (by simp)

theorem not_refuses {fault : Fault} (hne : updates ≠ []) (hm : Matched updates weights)
    (ht : ((weighed updates weights).map Prod.snd).sum ≠ 0)
    (h : IsMean (weighed updates weights) mean) : ¬ Refuses updates weights fault := by
  have hlayout := h.layout_eq hm
  intro hr
  cases hr with
  | empty => exact hne rfl
  | layout _ hu hl hleast =>
    exact hl ((hlayout _ (List.mem_of_getElem? hu)).symm.trans (hlayout _ (by simp)))
  | count hl hn => exact hn (hm _ rfl)
  | total hl hn hz =>
    rw [total_some hn] at ht
    simp [ht] at hz

theorem ofUpdates_eq_iff : ofUpdates updates weights = .ok mean ↔
    updates ≠ [] ∧ Matched updates weights ∧
      ((weighed updates weights).map Prod.snd).sum ≠ 0 ∧
      IsMean (weighed updates weights) mean := by
  constructor
  · intro h
    have hc := ofUpdates_ok_iff.mp h
    refine ⟨?_, ?_, hc.total_ne_zero, hc.isMean⟩
    · cases hc <;> simp
    · intro ws hws
      cases hc with
      | weighted hl hn hz hsum =>
        cases hws
        exact hn
      | plain => cases hws
  · rintro ⟨hne, hm, ht, h⟩
    obtain ⟨fault, hf⟩ | ⟨other, ho⟩ := refused_or_computed updates weights
    · exact absurd hf (not_refuses hne hm ht h)
    · rw [h.unique (weighed_ne_nil hne hm) ho.isMean]
      exact ho.ok

theorem ofUpdates_congr
    (hr : ∀ fault, Refuses updates weights fault ↔ Refuses updates' weights' fault)
    (hm : ∀ mean, ofUpdates updates weights = .ok mean → ofUpdates updates' weights' = .ok mean) :
    ofUpdates updates weights = ofUpdates updates' weights' := by
  cases h : ofUpdates updates weights with
  | error fault => exact (((hr fault).mp (ofUpdates_error_iff.mp h)).error).symm
  | ok mean => exact (hm mean h).symm

theorem ofUpdates_perm (hp : (weighed updates weights).Perm (weighed updates' weights'))
    (hm : Matched updates' weights') (h : ofUpdates updates weights = .ok mean) :
    ofUpdates updates' weights' = .ok mean := by
  obtain ⟨hne, hmatched, ht, hmean⟩ := ofUpdates_eq_iff.mp h
  have hu := hp.map Prod.fst
  rw [map_fst_weighed hmatched, map_fst_weighed hm] at hu
  refine ofUpdates_eq_iff.mpr ⟨?_, hm, ?_, hmean.perm hp⟩
  · rintro rfl
    exact hne hu.eq_nil
  · rwa [← (hp.map Prod.snd).sum_eq]

section Scaling

variable {ws : List Rat} {c : Rat}

theorem ofUpdates_of_scaled (hc : c ≠ 0) (hm : Matched updates weights')
    (hp : weighed updates weights' = (weighed updates weights).map fun e => (e.1, c * e.2))
    (h : ofUpdates updates weights = .ok mean) : ofUpdates updates weights' = .ok mean := by
  obtain ⟨hne, -, ht, hmean⟩ := ofUpdates_eq_iff.mp h
  refine ofUpdates_eq_iff.mpr ⟨hne, hm, ?_, hp ▸ hmean.scaled hc⟩
  rw [hp, List.map_map, Function.comp_def, List.sum_map_mul_left]
  exact mul_ne_zero hc ht

theorem Refuses.scaled {fault : Fault} (hc : c ≠ 0) (h : Refuses updates (some ws) fault) :
    Refuses updates (some (ws.map (c * ·))) fault := by
  cases h with
  | empty => exact .empty _
  | layout _ hu hl hleast => exact .layout _ hu hl hleast
  | count hl hn =>
    rw [← List.length_map (c * ·)] at hn ⊢
    exact .count hl hn
  | total hl hn hz =>
    refine .total hl (by rwa [List.length_map]) ?_
    rw [Scalar.sum_rat, List.sum_map_mul_left, List.map_id']
    simpa [hc] using hz

theorem ofUpdates_scaled (hc : c ≠ 0) :
    ofUpdates updates (some (ws.map (c * ·))) = ofUpdates updates (some ws) := by
  have hback : (ws.map (c * ·)).map (c⁻¹ * ·) = ws := by
    simp [Function.comp_def, inv_mul_cancel_left₀ hc]
  refine (ofUpdates_congr (fun fault => ⟨Refuses.scaled hc, fun h => ?_⟩) fun mean h => ?_).symm
  · rw [← hback]
    exact h.scaled (inv_ne_zero hc)
  · have hp : weighed updates (some (ws.map (c * ·)))
        = (weighed updates (some ws)).map fun e => (e.1, c * e.2) := List.zip_map_right
    refine ofUpdates_of_scaled hc (matched_some ?_) hp h
    rw [List.length_map, (ofUpdates_eq_iff.mp h).2.1 ws rfl]

theorem weighed_replicate (updates : List (Params Rat)) (c : Rat) :
    weighed updates (some (List.replicate updates.length c))
      = (weighed updates none).map fun e => (e.1, c * e.2) := by
  induction updates with
  | nil => rfl
  | cons u us ih =>
    simp only [weighed, List.length_cons, List.replicate_succ, List.zip_cons_cons, List.map_cons,
      mul_one] at ih ⊢
    rw [ih]

theorem ofUpdates_equal (hc : c ≠ 0) :
    ofUpdates updates (some (List.replicate updates.length c)) = ofUpdates updates none := by
  refine (ofUpdates_congr (fun fault => ⟨fun h => ?_, fun h => ?_⟩) fun mean h => ?_).symm
  · cases h with
    | empty => exact .empty _
    | layout _ hu hl hleast => exact .layout _ hu hl hleast
  · generalize hws : List.replicate updates.length c = ws at h
    cases h with
    | empty => exact .empty _
    | layout _ hu hl hleast => exact .layout _ hu hl hleast
    | count hl hn => exact absurd (by rw [← hws, List.length_replicate]) hn
    | total hl hn hz =>
      have htotal : ws.sum ≠ 0 := by
        rw [← hws, List.sum_replicate, nsmul_eq_mul]
        exact mul_ne_zero (Nat.cast_ne_zero.mpr (by simp)) hc
      exact absurd hz (by simpa using htotal)
  · exact ofUpdates_of_scaled hc (matched_some List.length_replicate)
      (weighed_replicate updates c) h

end Scaling

theorem ofUpdates_identical {v : Params Rat} (hv : ∀ u ∈ updates, u = v) (hne : updates ≠ [])
    (hm : Matched updates weights) (ht : ((weighed updates weights).map Prod.snd).sum ≠ 0) :
    ofUpdates updates weights = .ok v := by
  refine ofUpdates_eq_iff.mpr ⟨hne, hm, ht, .of_identical (fun e he => ?_) ht⟩
  have hfst := List.mem_map_of_mem (f := Prod.fst) he
  rw [map_fst_weighed hm] at hfst
  exact hv _ hfst

/-- What the averages of a list of updates are in exact arithmetic, and what they do not depend
on. -/
structure Settled (updates : List (Params Rat)) : Prop where
  weighted : ∀ ws mean, ofUpdates updates (some ws) = .ok mean →
    (∀ u ∈ updates, mean.layout = u.layout) ∧
    ∀ k, mean.coordinate k
      = ((updates.zip ws).map fun e => e.2 * e.1.coordinate k).sum / ws.sum
  plain : ∀ mean, ofUpdates updates none = .ok mean →
    (∀ u ∈ updates, mean.layout = u.layout) ∧
    ∀ k, mean.coordinate k = (updates.map fun u => u.coordinate k).sum / updates.length
  order_weighted : ∀ ws updates' ws', ws.length = updates.length → ws'.length = updates'.length →
    (updates.zip ws).Perm (updates'.zip ws') → ∀ mean,
      ofUpdates updates (some ws) = .ok mean ↔ ofUpdates updates' (some ws') = .ok mean
  order_plain : ∀ updates', updates.Perm updates' → ∀ mean,
    ofUpdates updates none = .ok mean ↔ ofUpdates updates' none = .ok mean
  scale : ∀ c ws, c ≠ 0 →
    ofUpdates updates (some (ws.map (c * ·))) = ofUpdates updates (some ws)
  equal : ∀ c, c ≠ 0 →
    ofUpdates updates (some (List.replicate updates.length c)) = ofUpdates updates none
  identical : ∀ v, updates ≠ [] → (∀ u ∈ updates, u = v) →
    ofUpdates updates none = .ok v ∧
    ∀ ws, ws.length = updates.length → ws.sum ≠ 0 → ofUpdates updates (some ws) = .ok v

theorem settled (updates : List (Params Rat)) : Settled updates where
  weighted := by
    intro ws mean h
    obtain ⟨-, hm, -, hmean⟩ := ofUpdates_eq_iff.mp h
    refine ⟨hmean.layout_eq hm, fun k => ?_⟩
    rw [hmean.coordinate, total_some (hm ws rfl), weighed]
  plain := by
    intro mean h
    obtain ⟨-, hm, -, hmean⟩ := ofUpdates_eq_iff.mp h
    refine ⟨hmean.layout_eq hm, fun k => ?_⟩
    rw [hmean.coordinate, total_none, weighed, List.map_map]
    simp only [Function.comp_def, one_mul]
  order_weighted := by
    intro ws updates' ws' hn hn' hp mean
    exact ⟨ofUpdates_perm hp (matched_some hn'), ofUpdates_perm hp.symm (matched_some hn)⟩
  order_plain := by
    intro updates' hp mean
    exact ⟨ofUpdates_perm (hp.map _) (matched_none updates'),
      ofUpdates_perm (hp.map _).symm (matched_none updates)⟩
  scale := fun _ _ hc => ofUpdates_scaled hc
  equal := fun _ hc => ofUpdates_equal hc
  identical := by
    intro v hne hv
    constructor
    · refine ofUpdates_identical hv hne (matched_none updates) ?_
      rw [total_none]
      exact Nat.cast_ne_zero.mpr (mt List.length_eq_zero_iff.mp hne)
    · intro ws hn ht
      exact ofUpdates_identical hv hne (matched_some hn) (by rwa [total_some hn])

/-- When updates have a mean, and what it is. The causes of refusal are those listed and no others,
whatever the numbers are. In exact arithmetic the mean is that of its name, so it does not depend on
the order of the updates, on the unit of the weights or on weights that are equal. -/
theorem means_settled :
    (∀ (α : Type) [Scalar α] (updates : List (Params α)) (weights : Option (List α))
      (fault : Fault),
      ofUpdates updates weights = .error fault ↔ Refuses updates weights fault) ∧
    (∀ ws : List Rat, Scalar.eq (Scalar.sum ws) Scalar.zero = true ↔ ws.sum = 0) ∧
    ∀ updates : List (Params Rat), Settled updates :=
  ⟨fun _ _ _ _ _ => ofUpdates_error_iff, fun ws => by simp, settled⟩

def uneven : List (Params Rat) := [.vector [1, 0], .vector [3, 2]]

theorem means_settled_uneven :
    (ofUpdates uneven (some [1, -1]) = .error .emptySelection) ∧
      ofUpdates uneven (some ([1, 3].map (-2 * ·))) = .ok (.vector [5 / 2, 3 / 2]) ∧
      ofUpdates uneven.reverse (some [3, 1]) = .ok (.vector [5 / 2, 3 / 2]) ∧
      ofUpdates uneven (some [7, 7]) = ofUpdates uneven none ∧
      ofUpdates [.vector [1, 0], .vector [1, 0]] (some [2, -1])
        = .ok (.vector [(1 : Rat), 0]) := by
  obtain ⟨hrefuses, hzero, hsettled⟩ := means_settled
  have hmean : ofUpdates uneven (some [1, 3]) = .ok (.vector [5 / 2, 3 / 2]) := by decide +kernel
  refine ⟨?_, ?_, ?_, ?_, ?_⟩
  · exact (hrefuses Rat _ _ _).mpr (.total (by decide) rfl ((hzero _).mpr (by norm_num)))
  · rw [(hsettled uneven).scale (-2) [1, 3] (by decide), hmean]
  · exact ((hsettled uneven).order_weighted [1, 3] uneven.reverse [3, 1] rfl rfl
      (List.Perm.swap _ _ []) _).mp hmean
  · exact (hsettled uneven).equal 7 (by decide)
  · exact ((hsettled [.vector [1, 0], .vector [1, 0]]).identical (.vector [1, 0]) (by simp)
      (by simp)).2 [2, -1] rfl (by norm_num)

end Average

end Federation
