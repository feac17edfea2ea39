import Federation.Proofs.Retention

/-!
# Decisions and the optimiser

Whom a round selects is decided before anything is added to the model, and after the selection
nothing can fail in one layout. So the rates, the momentum and, for the central majority, the
entries of the model have no influence on the decisions of a run, even where two runs drift apart
into different models.
-/

set_option autoImplicit false

namespace Federation

/-- What a round decides about its clients: whom it selects and rejects, and with which scores. -/
def Outcome.decision (outcome : Outcome) : List Nat × List Nat × Option (List Double) :=
  (outcome.selected, outcome.rejected, outcome.scores)

variable {state state' : State Single} {updates : Round}

theorem Average.obstacle?_of_layout {model model' : Params Single}
    (h : model.layout = model'.layout) (updates : Round) :
    obstacle? model updates = obstacle? model' updates := by
  unfold obstacle? misfit?
  rw [h]

namespace Central

variable {r r' : Central}

theorem select_of_assumed (h : r.assumed = r'.assumed) (updates : Round) :
    r.select updates = r'.select updates := by
  cases r
  cases r'
  cases h
  rfl

def verdict (updates : Round) (chosen : List Nat × List Double) :
    Except Fault (List Nat × List Nat × Option (List Double)) := do
  let _ ← Average.selected updates chosen.1
  return (chosen.1, (List.range updates.length).filter fun i => !isFound chosen.1 i, some chosen.2)

theorem decision_round (r : Central) (state : State Single) (updates : Round) :
    (r.round state updates).result.map Outcome.decision
      = match Average.obstacle? state.model updates with
        | some fault => .error fault
        | none => (r.select updates).result >>= verdict updates := by
  rw [round, roundBy, Logged.result_bind, Logged.result_lift, Average.check_eq]
  cases ho : Average.obstacle? state.model updates with
  | some fault => rfl
  | none =>
    rw [except_bind_ok, Logged.result_bind, ← select]
    cases (r.select updates).result with
    | error fault => rfl
    | ok chosen =>
      simp only [Logged.result_bind, Logged.result_emit, Logged.result_lift, except_bind_ok,
        verdict]
      cases hmean : Average.selected updates chosen.1 with
      | error fault => rfl
      | ok mean =>
        obtain ⟨-, hl⟩ := Average.obstacle?_eq_none_iff.mp ho
        obtain ⟨-, u, hu, hlu⟩ := Average.selected_layout hmean
        obtain ⟨model, hmodel, -⟩ := Params.addScaled_exists (-r.rate) (hlu.trans (hl u hu)).symm
        rw [except_bind_ok, except_bind_ok, hmodel]
        rfl

theorem decision_of_assumed (h : r.assumed = r'.assumed)
    (hl : state.model.layout = state'.model.layout) :
    (r.round state updates).result.map Outcome.decision
      = (r'.round state' updates).result.map Outcome.decision := by
  rw [decision_round, decision_round, Average.obstacle?_of_layout hl, select_of_assumed h]

end Central

namespace Information

open Statistics

def verdict (threshold : Double) (strict : Bool) (updates : Round) (scores : List Double) :
    Except Fault (List Nat × List Nat × Option (List Double)) := do
  let edit ← TwoSigma.ofValues scores
  if edit.isDegenerate = true ∧ strict = true then
    .error (.statistics (.zeroDeviation edit.median))
  else do
    let _ ← Average.selected updates (edit.partition threshold).1
    return ((edit.partition threshold).1, (edit.partition threshold).2, some scores)

variable (r : Information)

/-- The step after the edit does not fail, and leaves no trace in the decision. -/
theorem decision_conclude (scores : List Double)
    (hm : state.momentum.layout = state.model.layout)
    (hl : ∀ u ∈ updates, u.layout = state.model.layout) :
    (r.conclude state updates scores).result.map Outcome.decision
      = verdict r.threshold r.strict updates scores := by
  rw [result_conclude, verdict]
  cases TwoSigma.ofValues scores with
  | error fault => rfl
  | ok edit =>
    rw [except_bind_ok, except_bind_ok]
    by_cases hs : edit.isDegenerate = true ∧ r.strict = true
    · rw [if_pos hs, if_pos hs]
      rfl
    · rw [if_neg hs, if_neg hs]
      cases hmean : Average.selected updates (edit.partition r.threshold).1 with
      | error fault => rfl
      | ok mean =>
        obtain ⟨-, u, hu, hlu⟩ := Average.selected_layout hmean
        obtain ⟨next, hnext⟩ := State.nesterov_exists r.beta r.rate hm (hlu.trans (hl u hu))
        rw [except_bind_ok, except_bind_ok, hnext]
        rfl

theorem decision_round (hm : state.momentum.layout = state.model.layout) :
    (r.round state updates).2.result.map Outcome.decision
      = match Average.obstacle? state.model updates with
        | some fault => .error fault
        | none => (r.clientTable state.model updates).2.result >>= fun table =>
            verdict r.threshold r.strict updates (clientScores table) := by
  rw [result_round]
  cases ho : Average.obstacle? state.model updates with
  | some fault => rfl
  | none =>
    obtain ⟨-, hl⟩ := Average.obstacle?_eq_none_iff.mp ho
    cases (r.clientTable state.model updates).2.result with
    | error fault => rfl
    | ok table => exact r.decision_conclude (clientScores table) hm hl

theorem decision_of_model (rate beta rate' beta' : Single) (h : state.model = state'.model)
    (hm : state.momentum.layout = state.model.layout)
    (hm' : state'.momentum.layout = state'.model.layout) :
    ({ r with rate := rate, beta := beta }.round state updates).2.result.map Outcome.decision
      = ({ r with rate := rate', beta := beta' }.round state' updates).2.result.map
          Outcome.decision := by
  have htable : ∀ rate beta, { r with rate := rate, beta := beta }.clientTable state.model updates
      = r.clientTable state.model updates := fun _ _ => rfl
  rw [decision_round _ hm, decision_round _ hm', ← h, htable rate beta, htable rate' beta']

end Information

namespace Server

variable {s t : Server}

/-- Whether a call succeeds, and if it does not, why. -/
def ending (s : Server) (updates : Round) : Except Fault Unit :=
  (s.run updates).2.result.map fun _ => ()

def endings (s : Server) : List Round → List (Except Fault Unit)
  | [] => []
  | updates :: rest => s.ending updates :: (s.run updates).1.endings rest

theorem run_of_decision (s : Server) (updates : Round) :
    match (s.rule.round s.state updates).2.result.map Outcome.decision with
    | .error fault => s.ending updates = .error fault ∧
        (s.run updates).1.round = s.round ∧ (s.run updates).1.audit = s.audit
    | .ok (selected, rejected, _) => s.ending updates = .ok () ∧
        (s.run updates).1.round = s.round + 1 ∧
        (s.run updates).1.audit = s.audit.push
          ⟨s.round, updates.length, selected, rejected, s.rule.method.name⟩ := by
  unfold ending
  cases h : (s.rule.round s.state updates).2.result with
  | error fault =>
    rw [(run_of_error h).1, (run_of_error h).2]
    exact ⟨rfl, rfl, rfl⟩
  | ok outcome =>
    rw [(run_of_ok h).1, (run_of_ok h).2]
    exact ⟨rfl, rfl, rfl⟩

/-- Two central majorities that assume the same number of faulty clients, on models of one layout,
and have kept the same books. -/
structure Twins (s t : Server) : Prop where
  rules : ∃ r r' : Central, s.rule = .central r ∧ t.rule = .central r' ∧ r.assumed = r'.assumed
  layout : s.state.model.layout = t.state.model.layout
  round_eq : s.round = t.round
  audit_eq : s.audit = t.audit

theorem Twins.run (h : Twins s t) (updates : Round) :
    s.ending updates = t.ending updates ∧ Twins (s.run updates).1 (t.run updates).1 := by
  obtain ⟨r, r', hr, hr', ha⟩ := h.rules
  have hdecision : (s.rule.round s.state updates).2.result.map Outcome.decision
      = (t.rule.round t.state updates).2.result.map Outcome.decision := by
    rw [hr, hr']
    exact Central.decision_of_assumed ha h.layout
  have hrules : ∃ r r' : Central, (s.run updates).1.rule = .central r ∧
      (t.run updates).1.rule = .central r' ∧ r.assumed = r'.assumed := by
    rw [run_rule, run_rule, hr, hr']
    exact ⟨r, r', rfl, rfl, ha⟩
  have hlayout : (s.run updates).1.state.model.layout = (t.run updates).1.state.model.layout := by
    rw [run_layout, run_layout, h.layout]
  have hs := s.run_of_decision updates
  have ht := t.run_of_decision updates
  rw [← hdecision] at ht
  cases hd : (s.rule.round s.state updates).2.result.map Outcome.decision with
  | error fault =>
    rw [hd] at hs ht
    obtain ⟨hends, hround, haudit⟩ := hs
    obtain ⟨hends', hround', haudit'⟩ := ht
    exact ⟨hends.trans hends'.symm, hrules, hlayout, by rw [hround, hround', h.round_eq],
      by rw [haudit, haudit', h.audit_eq]⟩
  | ok decision =>
    rw [hd] at hs ht
    obtain ⟨hends, hround, haudit⟩ := hs
    obtain ⟨hends', hround', haudit'⟩ := ht
    have hmethod : s.rule.method = t.rule.method := by rw [hr, hr']; rfl
    exact ⟨hends.trans hends'.symm, hrules, hlayout, by rw [hround, hround', h.round_eq],
      by rw [haudit, haudit', h.audit_eq, h.round_eq, hmethod]⟩

theorem Twins.endings_eq (h : Twins s t) (rounds : List Round) :
    s.endings rounds = t.endings rounds := by
  induction rounds generalizing s t with
  | nil => rfl
  | cons updates rest ih =>
    obtain ⟨hends, hrun⟩ := h.run updates
    rw [endings, endings, hends, ih hrun]

theorem Twins.after (h : Twins s t) (rounds : List Round) :
    Twins (s.after rounds) (t.after rounds) := by
  induction rounds generalizing s t with
  | nil => exact h
  | cons updates rest ih => exact ih (h.run updates).2

end Server

/-- No decision depends on the optimiser. Two central majorities that assume the same number of
faulty clients, on models of one layout, end every call of a common run alike and have the same
audit after it, whatever their models, momenta, rates and coefficients are. An informative majority
decides alike for all momenta, rates and coefficients. -/
theorem decisions_ignore_optimiser :
    (∀ (r r' : Central) (state state' : State Single) (rounds : List Round),
      r.assumed = r'.assumed → state.model.layout = state'.model.layout →
        (Server.start (.central r) state).endings rounds
          = (Server.start (.central r') state').endings rounds ∧
        ((Server.start (.central r) state).after rounds).audit
          = ((Server.start (.central r') state').after rounds).audit) ∧
    ∀ (r : Information) (rate beta rate' beta' : Single) (state state' : State Single)
      (updates : Round), state.model = state'.model →
        state.momentum.layout = state.model.layout →
        state'.momentum.layout = state'.model.layout →
        ({ r with rate := rate, beta := beta }.round state updates).2.result.map Outcome.decision
          = ({ r with rate := rate', beta := beta' }.round state' updates).2.result.map
              Outcome.decision := by
  constructor
  · intro r r' state state' rounds ha hl
    have htwins : Server.Twins (.start (.central r) state) (.start (.central r') state') :=
      ⟨⟨r, r', rfl, rfl, ha⟩, hl, rfl, rfl⟩
    exact ⟨htwins.endings_eq rounds, (htwins.after rounds).audit_eq⟩
  · intro r rate beta rate' beta' state state' updates h hm hm'
    exact r.decision_of_model rate beta rate' beta' h hm hm'

def adrift : Central := ⟨.nan, .ofNat 7, none⟩

theorem decisions_ignore_optimiser_adrift :
    (Server.start (.central steady) (.fresh (.vector [.zero]))).endings interrupted
      = (Server.start (.central adrift) ⟨.vector [.infinity false], .vector [.nan]⟩).endings
          interrupted ∧
      ({ Information.threefold with rate := .ofNat 1, beta := .zero }.round
          ⟨Information.columns 0 0 0, Information.columns 0 0 0⟩
          Information.scattering).2.result.map Outcome.decision
        = ({ Information.threefold with rate := .nan, beta := .ofNat 7 }.round
            ⟨Information.columns 0 0 0, Information.columns 1 2 3⟩
            Information.scattering).2.result.map Outcome.decision := by
  obtain ⟨hcentral, hinformation⟩ := decisions_ignore_optimiser
  constructor
  · exact (hcentral steady adrift _ _ interrupted rfl (by decide)).1
  · exact hinformation Information.threefold _ _ _ _ _ _ _ rfl (by decide) (by decide)

end Federation
