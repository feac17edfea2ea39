import Federation.Proofs.Coordinates
import Federation.Proofs.Float.Zeros
import Federation.Proofs.Influence
import Federation.Proofs.Outcomes
import Federation.Proofs.Retention

/-!
# Agreement of the rules

The rules differ in whom they select and in how they step. Where everybody is selected they step
along one mean. A central majority that assumes no faulty client then makes the very step of the
plain mean; without momentum an informative majority makes the same step in other operations, which
can only turn the sign of a zero.
-/

set_option autoImplicit false

namespace Federation

namespace Params

/-- One layout, and in each place one number or twice the invalid value; both zeros are one
number. -/
structure SameNumbers (p q : Params Single) : Prop where
  layout : p.layout = q.layout
  positions : p.flatten.map Binary.position = q.flatten.map Binary.position

end Params

namespace Binary

theorem position_step {beta m : Single} (rate x d : Single) (hbeta : beta.position = some 0)
    (hm : m.isFinite = true) :
    ((x + -beta * m) + (Scalar.one + beta) * (m * beta + -rate * d)).position
      = (x + -rate * d).position := by
  have hneg : (-beta).position = some 0 := by
    rw [position_neg, hbeta]
    rfl
  have hone : Scalar.one + beta = Scalar.one := one_add_zero_single hbeta
  rw [hone, one_mul_single]
  apply position_add_congr
  · exact position_add_zero x (position_zero_mul hm hneg)
  · exact position_zero_add _ (position_mul_zero hm hbeta)

end Binary

namespace State

variable {s next : State Single} {direction model : Params Single} {beta rate : Single}

theorem sameNumbers_nesterov (hbeta : beta.position = some 0) (hfin : s.momentum.isFinite = true)
    (h : s.nesterov direction beta rate = .ok next)
    (hmodel : s.model.addScaled (-rate) direction = .ok model) :
    next.model.SameNumbers model := by
  obtain ⟨hmomentum, hnext⟩ := flatten_nesterov h
  obtain ⟨hsm, hmd, hx, -⟩ := nesterov_layout h
  refine ⟨hx.trans (Params.addScaled_layout hmodel).2.symm, ?_⟩
  have hlm := Params.length_flatten_of_layout hsm
  have hld := Params.length_flatten_of_layout hmd
  rw [hnext, hmomentum, Params.flatten_addScaled hmodel]
  apply List.ext_getElem
  · simp [hlm, hld]
  · intro i hi hi'
    have hm : ∀ j (hj : j < s.momentum.flatten.length),
        s.momentum.flatten[j].isFinite = true := fun j hj =>
      List.all_eq_true.mp hfin _ (List.getElem_mem hj)
    simp only [List.getElem_map, List.getElem_zipWith]
    exact Binary.position_step _ _ _ hbeta (hm _ _)

end State

variable {outcome : Outcome} {state : State Single} {updates : Round}

theorem Outcome.Fits.rejected_eq_nil_iff (h : outcome.Fits state updates) :
    outcome.rejected = [] ↔ outcome.selected = List.range updates.length := by
  obtain ⟨test, hs, hr⟩ := h.split
  rw [hs, hr, List.filter_eq_nil_iff, List.filter_eq_self]
  simp

theorem Outcome.Fits.selected_eq (h : outcome.Fits state updates)
    (hl : outcome.selected.length = updates.length) :
    outcome.selected = List.range updates.length := by
  obtain ⟨test, hs, -⟩ := h.split
  rw [hs]
  apply List.filter_sublist.eq_of_length
  rw [← hs, hl, List.length_range]

theorem Central.roundBy_everybody {sort : Sorting} (hsort : sort.Permutes) {r : Central}
    (hr : r.assumed = some 0) (h : (r.roundBy sort state updates).result = .ok outcome) :
    outcome.selected = List.range updates.length ∧ outcome.rejected = [] := by
  have hf : r.faulty updates.length = 0 := by
    unfold faulty
    rw [hr]
    rfl
  have hfits := Central.roundBy_fits hsort h
  obtain ⟨selected, scores, mean, model, -, hs, -, -, rfl⟩ := roundBy_ok_iff.mp h
  have hlen := selectBy_length hsort hs
  rw [hf, Nat.sub_zero] at hlen
  exact ⟨hfits.selected_eq hlen, hfits.rejected_eq_nil_iff.mpr (hfits.selected_eq hlen)⟩

theorem Central.roundBy_state_eq {sort : Sorting} (hsort : sort.Permutes) {r : Central}
    {beta : Single} {plain : Outcome} (hr : r.assumed = some 0)
    (hplain : (Mean.round ⟨r.rate, beta⟩ state updates).result = .ok plain)
    (h : (r.roundBy sort state updates).result = .ok outcome) : outcome.state = plain.state := by
  obtain ⟨mean, model, hc, hmean, hstep, rfl⟩ := Mean.round_ok_iff.mp hplain
  obtain ⟨hne, hl⟩ := Average.check_ok_iff.mp hc
  obtain ⟨hs, -⟩ := roundBy_everybody hsort hr h
  obtain ⟨selected, scores, mean', model', -, -, hmean', hstep', rfl⟩ := roundBy_ok_iff.mp h
  obtain rfl : selected = List.range updates.length := hs
  rw [Average.selected_eq fun i hi => List.mem_range.mp hi, Average.chosen_range,
    ← Average.ofUpdates_eq hne hl, hmean] at hmean'
  obtain rfl := Except.ok.inj hmean'
  obtain rfl := Except.ok.inj (hstep'.symm.trans hstep)
  rfl

namespace Rule

/-- The rules agree where nobody is left out and no momentum is used. Assuming no faulty client, a
central majority that is completed selects everybody and ends in the very state of the plain mean,
whatever order its sorts put the clients in. It is completed in settled rounds, and otherwise its
sorts may give up. The informative majority without momentum ends in the model of the plain mean up
to the signs of zeros. -/
theorem rounds_agree (rate beta : Single) (state : State Single) (updates : Round)
    (hne : updates ≠ []) (hl : ∀ u ∈ updates, u.layout = state.model.layout) :
    ∃ plain, (Mean.round ⟨rate, beta⟩ state updates).result = .ok plain ∧
      (3 ≤ updates.length → ∀ r : Central, r.rate = rate → r.assumed = some 0 →
        ((∃ outcome, (r.round state updates).result = .ok outcome) ∨
          ¬Central.Settled updates ∧
            (r.round state updates).result = .error .contradictoryOrder) ∧
        ∀ sort : Sorting, sort.Permutes →
          (sort.Finishes → ∃ outcome, (r.roundBy sort state updates).result = .ok outcome) ∧
          ∀ outcome, (r.roundBy sort state updates).result = .ok outcome →
            outcome.state = plain.state ∧ outcome.selected = List.range updates.length ∧
              outcome.rejected = []) ∧
      ∀ (r : Information) (outcome : Outcome), r.rate = rate → r.beta.eq .zero = true →
        state.momentum.isFinite = true → (r.round state updates).2.result = .ok outcome →
        outcome.rejected = [] → outcome.state.model.SameNumbers plain.state.model := by
  have hobstacle : Average.obstacle? state.model updates = none :=
    Average.obstacle?_eq_none_iff.mpr ⟨hne, hl⟩
  obtain ⟨plain, hplain, hrange⟩ := Mean.round_exists ⟨rate, beta⟩ hobstacle
  obtain ⟨mean, hmean, hadvance⟩ := round_advance (r := .mean ⟨rate, beta⟩) hplain
  rw [hrange] at hmean
  refine ⟨plain, hplain, ?_, ?_⟩
  · rintro hthree r rfl hassumed
    have hf : r.faulty updates.length = 0 := by
      unfold Central.faulty
      rw [hassumed]
      rfl
    have hn : Central.neighbourCount? updates.length (r.faulty updates.length)
        = some (updates.length - 2) := by
      rw [hf]
      exact Central.neighbourCount?_eq_some_iff.mpr ⟨by decide, hthree, rfl⟩
    refine ⟨(Central.round_of_counted hobstacle hn).imp_left fun ⟨outcome, ho, _⟩ => ⟨outcome, ho⟩,
      fun sort hsort => ⟨fun hfin => ?_, fun outcome ho => ?_⟩⟩
    · obtain ⟨outcome, ho, -⟩ :=
        (Central.roundBy_of_counted hsort hobstacle hn).resolve_right fun h => h.2 hfin
      exact ⟨outcome, ho⟩
    · obtain ⟨hs, hrejected⟩ := Central.roundBy_everybody hsort hassumed ho
      exact ⟨Central.roundBy_state_eq hsort hassumed hplain ho, hs, hrejected⟩
  · rintro r outcome rfl hbeta hfin ho hr
    have hs := (Information.round_fits ho).rejected_eq_nil_iff.mp hr
    obtain ⟨mean', hmean', ha⟩ := round_advance (r := .information r) ho
    rw [hs, hmean] at hmean'
    obtain rfl := Except.ok.inj hmean'
    obtain ⟨model, hmodel, hstate⟩ := except_bind_ok_iff.mp hadvance
    have hzero : r.beta.position = some 0 := Binary.position_of_eq_zero hbeta
    rw [← Except.ok.inj hstate]
    exact State.sameNumbers_nesterov hzero hfin ha hmodel

def balanced : Round :=
  [Information.columns 1 2 3, Information.columns 1 3 2, Information.columns 2 1 3]

theorem rounds_agree_balanced :
    ∃ plain central informed,
      (Mean.round ⟨.ofNat 1, .ofNat 0⟩ (.fresh (Information.columns 0 0 0)) balanced).result
        = .ok plain ∧
      (Central.round ⟨.ofNat 1, .ofNat 7, some 0⟩ (.fresh (Information.columns 0 0 0))
        balanced).result = .ok central ∧
      (Information.threefold.round (.fresh (Information.columns 0 0 0)) balanced).2.result
        = .ok informed ∧
      central.state = plain.state ∧ informed.state.model.SameNumbers plain.state.model := by
  have hl : ∀ u ∈ balanced, u.layout = (Information.columns 0 0 0).layout := by decide
  obtain ⟨plain, hplain, hcentral, hinformed⟩ := rounds_agree (.ofNat 1) (.ofNat 0)
    (.fresh (Information.columns 0 0 0)) balanced (by decide) hl
  obtain ⟨hends, hsorts⟩ := hcentral (by decide) ⟨.ofNat 1, .ofNat 7, some 0⟩ rfl rfl
  obtain ⟨central, hc⟩ := hends.resolve_right fun h => h.1 (.inl (by decide))
  obtain ⟨hstate, -⟩ := (hsorts .standard Sorting.standard_permutes).2 central hc
  obtain ⟨informed, hi, hselected⟩ := exists_of_selected
    (show (Information.threefold.round (.fresh (Information.columns 0 0 0))
      balanced).2.result.toOption.map Outcome.selected = some [0, 1, 2] by decide +kernel)
  have hrejected := (Information.round_fits hi).rejected_eq_nil_iff.mpr hselected
  exact ⟨plain, central, informed, hplain, hc, hi, hstate,
    hinformed Information.threefold informed rfl (by decide) (by decide) hi hrejected⟩

/-- Among more than twenty clients one invalid entry makes a sort give up where the plain mean is
completed. -/
theorem rounds_disagree_invalid :
    3 ≤ Central.invalidSixth.length ∧
      (∀ u ∈ Central.invalidSixth,
        u.layout = (State.fresh (.vector [.zero]) : State Single).model.layout) ∧
      (∃ plain,
        (Mean.round ⟨.ofNat 1, .ofNat 0⟩ (.fresh (.vector [.zero])) Central.invalidSixth).result
          = .ok plain) ∧
      (Central.trusting.round (.fresh (.vector [.zero])) Central.invalidSixth).result
        = .error .contradictoryOrder := by
  have hl : ∀ u ∈ Central.invalidSixth,
      u.layout = (State.fresh (.vector [.zero]) : State Single).model.layout := by
    decide +kernel
  obtain ⟨plain, hplain, -⟩ := Mean.round_exists ⟨.ofNat 1, .ofNat 0⟩
    (Average.obstacle?_eq_none_iff.mpr ⟨by decide, hl⟩)
  exact ⟨by decide, hl, ⟨plain, hplain⟩, congrArg Logged.result Central.round_gives_up⟩

end Rule

end Federation
