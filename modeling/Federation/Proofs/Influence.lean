import Federation.Proofs.Averages
import Federation.Proofs.Bookkeeping

/-!
# Influence

What a round makes of the state depends on the selected updates alone: the next state is one step of
the rule along their mean. A rejected update decides only who is selected. So two rounds that select
the same updates end in the same state, however many clients were rejected, wherever they stood and
whatever they sent.
-/

set_option autoImplicit false

namespace Federation.Rule

open Average (chosen ofList)

/-- Moves a state along the mean of the selected updates. Only the informative majority uses and
renews the momentum. -/
def advance (r : Rule) (state : State Single) (mean : Params Single) :
    Except Fault (State Single) :=
  match r with
  | .mean m => do return ⟨← state.model.addScaled (-m.rate) mean, state.momentum⟩
  | .central c => do return ⟨← state.model.addScaled (-c.rate) mean, state.momentum⟩
  | .information i => state.nesterov mean i.beta i.rate

/-- Rules of one kind with one rate and one momentum coefficient. They may differ in how they
select. -/
def StepsAlike : Rule → Rule → Prop
  | .mean m, .mean n => m.rate = n.rate ∧ m.beta = n.beta
  | .central c, .central d => c.rate = d.rate ∧ c.beta = d.beta
  | .information i, .information j => i.rate = j.rate ∧ i.beta = j.beta
  | _, _ => False

theorem StepsAlike.advance_eq {r r' : Rule} (h : r.StepsAlike r') : r.advance = r'.advance := by
  funext state mean
  cases r <;> cases r'
  case mean.mean => simp only [advance, h.1]
  case central.central => simp only [advance, h.1]
  case information.information => simp only [advance, h.1, h.2]
  all_goals cases h

theorem selected_lt {r : Rule} {state : State Single} {updates : Round} {outcome : Outcome}
    (h : (r.round state updates).2.result = .ok outcome) :
    ∀ i ∈ outcome.selected, i < updates.length := by
  obtain ⟨test, hs, -⟩ := (round_fits h).split
  intro i hi
  rw [hs] at hi
  exact List.mem_range.mp (List.mem_of_mem_filter hi)

theorem round_advance {r : Rule} {state : State Single} {updates : Round} {outcome : Outcome}
    (h : (r.round state updates).2.result = .ok outcome) :
    ∃ mean, ofList (chosen updates outcome.selected) = .ok mean ∧
      r.advance state mean = .ok outcome.state := by
  have hlt := selected_lt h
  rw [← Average.selected_eq hlt]
  cases r with
  | mean m =>
    obtain ⟨mean, model, hc, hm, ha, rfl⟩ := Mean.round_ok_iff.mp h
    refine ⟨mean, ?_, by simp only [advance, ha]; rfl⟩
    cases updates with
    | nil => exact absurd rfl (Average.check_ok_iff.mp hc).1
    | cons first rest =>
      obtain ⟨_, -, hm⟩ := except_bind_ok_iff.mp hm
      exact hm
  | central c =>
    obtain ⟨selected, scores, mean, model, -, -, hm, ha, rfl⟩ := Central.round_ok_iff.mp h
    exact ⟨mean, hm, by simp only [advance, ha]; rfl⟩
  | information i =>
    obtain ⟨table, -, -, hc⟩ := Information.round_ok_iff.mp h
    obtain ⟨edit, mean, next, -, -, hm, hn, rfl⟩ := Information.conclude_ok_iff.mp hc
    exact ⟨mean, hm, hn⟩

/-- Rejected updates have no influence: completed rounds from one state that selected the same
updates in the same order end in the same state. -/
theorem state_of_chosen (r r' : Rule) (state : State Single) (updates updates' : Round)
    (outcome outcome' : Outcome) (halike : r.StepsAlike r')
    (h : (r.round state updates).2.result = .ok outcome)
    (h' : (r'.round state updates').2.result = .ok outcome')
    (hchosen : chosen updates outcome.selected = chosen updates' outcome'.selected) :
    outcome.state = outcome'.state := by
  obtain ⟨mean, hm, ha⟩ := round_advance h
  obtain ⟨mean', hm', ha'⟩ := round_advance h'
  rw [hchosen, hm'] at hm
  cases hm
  rw [halike.advance_eq, ha'] at ha
  exact (Except.ok.inj ha).symm

def nearby : Round := [1, 2, 3, 100].map fun n => .vector [.ofNat n]

def scattered : Round := [.ofNat 1000, .ofNat 1, .ofNat 2, .ofNat 3, .infinity true].map fun x =>
  .vector [x]

theorem exists_of_selected {x : Except Fault Outcome} {selected : List Nat}
    (h : x.toOption.map Outcome.selected = some selected) :
    ∃ outcome, x = .ok outcome ∧ outcome.selected = selected := by
  cases x with
  | error fault => cases h
  | ok outcome => exact ⟨outcome, rfl, Option.some.inj h⟩

theorem state_of_chosen_scattered :
    ∃ outcome outcome', ((central ⟨.ofNat 1, .ofNat 0, none⟩).round (.fresh (.vector [.ofNat 7]))
        nearby).2.result = .ok outcome ∧ outcome.selected = [0, 1, 2] ∧
      ((central ⟨.ofNat 1, .ofNat 0, some 2⟩).round (.fresh (.vector [.ofNat 7]))
        scattered).2.result = .ok outcome' ∧ outcome'.selected = [1, 2, 3] ∧
      outcome.state = outcome'.state := by
  obtain ⟨outcome, h, hs⟩ := exists_of_selected (show (((central ⟨.ofNat 1, .ofNat 0, none⟩).round
    (.fresh (.vector [.ofNat 7])) nearby).2.result.toOption.map Outcome.selected)
      = some [0, 1, 2] by decide +kernel)
  obtain ⟨outcome', h', hs'⟩ := exists_of_selected (show (((central ⟨.ofNat 1, .ofNat 0,
    some 2⟩).round (.fresh (.vector [.ofNat 7])) scattered).2.result.toOption.map Outcome.selected)
      = some [1, 2, 3] by decide +kernel)
  refine ⟨outcome, outcome', h, hs, h', hs', ?_⟩
  have halike : StepsAlike (central ⟨.ofNat 1, .ofNat 0, none⟩)
      (central ⟨.ofNat 1, .ofNat 0, some 2⟩) := ⟨rfl, rfl⟩
  refine state_of_chosen _ _ _ _ _ _ _ halike h h' ?_
  rw [hs, hs']
  rfl

end Federation.Rule
