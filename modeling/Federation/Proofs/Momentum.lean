import Federation.Proofs.Coordinates
import Mathlib.Algebra.BigOperators.Group.Finset.Basic
import Mathlib.Algebra.BigOperators.Ring.Finset
import Mathlib.Algebra.Order.Ring.Rat
import Mathlib.Tactic.NormNum
import Mathlib.Tactic.Ring

/-!
# Momentum over many rounds

In exact arithmetic the momentum is a discounted sum of all averages so far. The model itself has no
such form, but the point that it looks back to, `x - beta * m`, moves by the new momentum in every
round. A run can be stopped and resumed anywhere with the model and the momentum alone.
-/

set_option autoImplicit false

namespace Federation

namespace Params

/-- A coordinate; parameters are zero past their entries. -/
def coordinate (p : Params Rat) (k : Nat) : Rat := p.flatten.getD k 0

variable {p q sum : Params Rat} {factor : Rat}

theorem coordinate_scale (factor : Rat) (p : Params Rat) (k : Nat) :
    (p.scale factor).coordinate k = p.coordinate k * factor := by
  unfold coordinate
  rw [flatten_scale]
  by_cases hk : k < p.flatten.length
  · simp [hk]
  · simp [Nat.le_of_not_lt hk]

theorem coordinate_addScaled (h : p.addScaled factor q = .ok sum) (k : Nat) :
    sum.coordinate k = p.coordinate k + factor * q.coordinate k := by
  have hl := length_flatten_of_layout (addScaled_layout h).1
  unfold coordinate
  rw [flatten_addScaled h]
  by_cases hk : k < p.flatten.length
  · simp [hk, hl ▸ hk]
  · have hq : q.flatten.length ≤ k := hl ▸ Nat.le_of_not_lt hk
    simp [Nat.le_of_not_lt hk, hq]

end Params

namespace State

def after {α : Type} [Scalar α] (beta rate : α) (average : Nat → Params α) (s : State α) :
    Nat → Except Fault (State α)
  | 0 => .ok s
  | t + 1 => do
    let current ← s.after beta rate average t
    current.nesterov (average t) beta rate

section Split

variable {α : Type} [Scalar α] {beta rate : α} {average : Nat → Params α} {s middle : State α}

theorem after_layout (beta rate : α) {t : Nat} (hm : s.momentum.layout = s.model.layout)
    (ha : ∀ i < t, (average i).layout = s.model.layout) :
    ∃ last, s.after beta rate average t = .ok last ∧ last.model.layout = s.model.layout ∧
      last.momentum.layout = s.model.layout := by
  induction t with
  | zero => exact ⟨s, rfl, rfl, hm⟩
  | succ t ih =>
    obtain ⟨last, hlast, hx, hl⟩ := ih fun i hi => ha i (by omega)
    have ht : (average t).layout = last.model.layout := (ha t (by omega)).trans hx.symm
    obtain ⟨next, hn⟩ := nesterov_exists beta rate (hl.trans hx.symm) ht
    obtain ⟨-, -, hnx, hnl⟩ := nesterov_layout hn
    refine ⟨next, ?_, hnx.trans hx, hnl.trans hl⟩
    rw [after, hlast, except_bind_ok, hn]

theorem after_add {t : Nat} (h : s.after beta rate average t = .ok middle) (u : Nat) :
    s.after beta rate average (t + u)
      = middle.after beta rate (fun i => average (t + i)) u := by
  induction u with
  | zero => exact h
  | succ u ih => rw [← Nat.add_assoc, after, ih, after]

end Split

variable {beta rate : Rat} {average : Nat → Params Rat} {s next : State Rat}
  {direction : Params Rat} {state : Nat → State Rat} {rounds : Nat}

/-- One step: the momentum is discounted and goes against the average, and the point looked back to
moves by the new momentum. -/
theorem coordinate_nesterov (h : s.nesterov direction beta rate = .ok next) (k : Nat) :
    next.momentum.coordinate k
        = beta * s.momentum.coordinate k - rate * direction.coordinate k ∧
      next.model.coordinate k - beta * next.momentum.coordinate k
        = s.model.coordinate k - beta * s.momentum.coordinate k + next.momentum.coordinate k := by
  have hone : (Scalar.one : Rat) = 1 := by simp [Scalar.one, Scalar.ofNat, Scalar.ofRatio]
  simp only [nesterov, except_bind_ok_iff] at h
  obtain ⟨momentum, hm, behind, hb, model, hx, h⟩ := h
  cases h
  constructor
  · rw [Params.coordinate_addScaled hm, Params.coordinate_scale]
    ring
  · rw [Params.coordinate_addScaled hx, Params.coordinate_addScaled hb, hone]
    ring

section Run

variable (h : ∀ t ≤ rounds, s.after beta rate average t = .ok (state t))

include h

theorem step_of_after {t : Nat} (ht : t < rounds) :
    (state t).nesterov (average t) beta rate = .ok (state (t + 1)) := by
  have hs := h (t + 1) ht
  rwa [after, h t (Nat.le_of_lt ht), except_bind_ok] at hs

theorem state_zero : state 0 = s := (Except.ok.inj (h 0 (Nat.zero_le _))).symm

theorem momentum_after {t : Nat} (ht : t ≤ rounds) (k : Nat) :
    (state t).momentum.coordinate k = beta ^ t * s.momentum.coordinate k
      - rate * ∑ i ∈ Finset.range t, beta ^ (t - 1 - i) * (average i).coordinate k := by
  induction t with
  | zero => simp [state_zero h]
  | succ t ih =>
    -- one round later every earlier average is discounted once more
    have hshift : ∑ i ∈ Finset.range t, beta ^ (t + 1 - 1 - i) * (average i).coordinate k
        = beta * ∑ i ∈ Finset.range t, beta ^ (t - 1 - i) * (average i).coordinate k := by
      rw [Finset.mul_sum]
      apply Finset.sum_congr rfl
      intro i hi
      have hlt := Finset.mem_range.mp hi
      rw [show t + 1 - 1 - i = t - 1 - i + 1 by omega, pow_succ]
      ring
    rw [(coordinate_nesterov (step_of_after h ht) k).1, ih (Nat.le_of_lt ht),
      Finset.sum_range_succ, hshift, show t + 1 - 1 - t = 0 by omega]
    ring

theorem model_after {t : Nat} (ht : t ≤ rounds) (k : Nat) :
    (state t).model.coordinate k - beta * (state t).momentum.coordinate k
      = s.model.coordinate k - beta * s.momentum.coordinate k
        + ∑ i ∈ Finset.range t, (state (i + 1)).momentum.coordinate k := by
  induction t with
  | zero => simp [state_zero h]
  | succ t ih =>
    rw [(coordinate_nesterov (step_of_after h ht) k).2, ih (Nat.le_of_lt ht),
      Finset.sum_range_succ, add_assoc]

end Run

/-- What any number of rounds make of a state, in exact arithmetic and in every coordinate. The
rounds can be cut anywhere, and resumed with the model and the momentum that were reached. -/
theorem after_unrolled (beta rate : Rat) (average : Nat → Params Rat) (s : State Rat)
    (rounds : Nat) (hm : s.momentum.layout = s.model.layout)
    (ha : ∀ t < rounds, (average t).layout = s.model.layout) :
    ∃ state : Nat → State Rat,
      (∀ t ≤ rounds, s.after beta rate average t = .ok (state t) ∧
        (state t).model.layout = s.model.layout ∧ (state t).momentum.layout = s.model.layout) ∧
      (∀ k, (state rounds).momentum.coordinate k = beta ^ rounds * s.momentum.coordinate k
        - rate * ∑ t ∈ Finset.range rounds,
          beta ^ (rounds - 1 - t) * (average t).coordinate k) ∧
      (∀ k, (state rounds).model.coordinate k - beta * (state rounds).momentum.coordinate k
        = s.model.coordinate k - beta * s.momentum.coordinate k
          + ∑ t ∈ Finset.range rounds, (state (t + 1)).momentum.coordinate k) ∧
      ∀ t u, t + u = rounds → (do
        let resumed ← State.resume (state t).model (state t).momentum
        resumed.after beta rate (fun i => average (t + i)) u) = .ok (state rounds) := by
  have hex : ∀ t : Nat, ∃ last, t ≤ rounds → s.after beta rate average t = .ok last ∧
      last.model.layout = s.model.layout ∧ last.momentum.layout = s.model.layout := by
    intro t
    by_cases ht : t ≤ rounds
    · obtain ⟨last, hlast⟩ := after_layout beta rate hm fun i (hi : i < t) => ha i (by omega)
      exact ⟨last, fun _ => hlast⟩
    · exact ⟨s, fun h => absurd h ht⟩
  choose state hstate using hex
  have hafter : ∀ t ≤ rounds, s.after beta rate average t = .ok (state t) := fun t ht =>
    (hstate t ht).1
  refine ⟨state, hstate, momentum_after hafter le_rfl, model_after hafter le_rfl, ?_⟩
  intro t u htu
  have ht : t ≤ rounds := by omega
  obtain ⟨-, hx, hl⟩ := hstate t ht
  rw [State.resume, if_pos (hx.trans hl.symm), except_bind_ok, ← after_add (hafter t ht), htu]
  exact hafter rounds le_rfl

theorem after_unrolled_halving :
    ∃ middle last,
      (⟨.vector [1, 3], .vector [1 / 2, 0]⟩ : State Rat).after (1 / 2) (1 / 4)
        (fun _ => .vector [2, 4]) 1 = .ok middle ∧
      (⟨.vector [1, 3], .vector [1 / 2, 0]⟩ : State Rat).after (1 / 2) (1 / 4)
        (fun _ => .vector [2, 4]) 3 = .ok last ∧
      (do
        let resumed ← State.resume middle.model middle.momentum
        resumed.after (1 / 2) (1 / 4) (fun _ => .vector [2, 4]) 2) = .ok last ∧
      last.momentum.coordinate 0 = -13 / 16 ∧ last.momentum.coordinate 1 = -7 / 4 ∧
      last.model.coordinate 0 = -43 / 32 := by
  have hrun := fun rounds => after_unrolled (1 / 2) (1 / 4) (fun _ => .vector [2, 4])
    ⟨.vector [1, 3], .vector [1 / 2, 0]⟩ rounds rfl fun _ _ => rfl
  obtain ⟨state, hstate, hmomentum, hmodel, hsplit⟩ := hrun 3
  obtain ⟨first, hfirst, hmomentum₁, -⟩ := hrun 1
  obtain ⟨second, hsecond, hmomentum₂, -⟩ := hrun 2
  have hone : state 1 = first 1 :=
    Except.ok.inj ((hstate 1 (by decide)).1.symm.trans (hfirst 1 le_rfl).1)
  have htwo : state 2 = second 2 :=
    Except.ok.inj ((hstate 2 (by decide)).1.symm.trans (hsecond 2 le_rfl).1)
  have hlast : (state 3).momentum.coordinate 0 = -13 / 16 := by
    rw [hmomentum 0]
    norm_num [Finset.sum_range_succ, Params.coordinate, Params.vector, Params.flatten,
      Tensor.vector]
  refine ⟨state 1, state 3, (hstate 1 (by decide)).1, (hstate 3 le_rfl).1, hsplit 1 2 rfl, hlast,
    ?_, ?_⟩
  · rw [hmomentum 1]
    norm_num [Finset.sum_range_succ, Params.coordinate, Params.vector, Params.flatten,
      Tensor.vector]
  · have hahead := hmodel 0
    rw [Finset.sum_range_succ, Finset.sum_range_succ, Finset.sum_range_one, hone, htwo, hlast,
      hmomentum₁ 0, hmomentum₂ 0] at hahead
    norm_num [Finset.sum_range_succ, Params.coordinate, Params.vector, Params.flatten,
      Tensor.vector] at hahead ⊢
    linarith

end State

end Federation
