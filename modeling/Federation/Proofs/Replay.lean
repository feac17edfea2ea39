import Federation.Proofs.Run

/-!
# Replaying a run

The only thing that a rule carries from one round to the next is what its probe was last loaded
with. A load overwrites all of that and keeps sizes and activation, and outputs are taken of loaded
models only. So two rules of one configuration cannot be told apart, and a run is a fold over
states.
-/

set_option autoImplicit false

namespace Federation

/-- Everything about two probes but the loaded parameters agrees. -/
structure Probe.Alike (p q : Probe) : Prop where
  activation : p.activation = q.activation
  size : p.weights.size = q.weights.size

namespace Probe

theorem Alike.refl (p : Probe) : p.Alike p := ⟨rfl, rfl⟩

theorem Alike.symm {p q : Probe} (h : p.Alike q) : q.Alike p := ⟨h.1.symm, h.2.symm⟩

theorem Alike.trans {p q r : Probe} (h : p.Alike q) (k : q.Alike r) : p.Alike r :=
  ⟨h.1.trans k.1, h.2.trans k.2⟩

theorem Alike.length_bias {p q : Probe} (h : p.Alike q) : p.bias.length = q.bias.length := by
  have hw : p.weights.width = q.weights.width := congrArg Prod.snd h.size
  rw [p.length_bias, q.length_bias, hw]

def cleared (p : Probe) : Probe := zeros p.inputs p.outputs p.activation

theorem alike_cleared (p : Probe) : p.Alike p.cleared := by
  refine ⟨rfl, ?_⟩
  simp [cleared, zeros, Matrix.size, Matrix.height, Matrix.constant, inputs, outputs]

theorem load_congr {p q : Probe} (h : p.Alike q) (candidate : Params Single) :
    p.load candidate = q.load candidate := by
  unfold load
  simp only [h.activation, h.size, h.length_bias]

theorem load_alike {p loaded : Probe} {candidate : Params Single}
    (h : p.load candidate = .ok loaded) : p.Alike loaded := by
  unfold load at h
  split at h
  · split at h
    · split at h
      · rename_i hs
        cases h
        exact ⟨rfl, hs.1.symm⟩
      · cases h
    · cases h
  · cases h

/-- The first load makes the probes equal, and without a model there is no output. -/
theorem outputsOf_congr {p q : Probe} (h : p.Alike q) (batch : Matrix Single)
    (models : List (Params Single)) :
    (outputsOf batch p models).2 = (outputsOf batch q models).2 := by
  cases models with
  | nil => rfl
  | cons model models =>
    simp only [outputsOf, load_congr h]
    cases q.load model with
    | error fault => rfl
    | ok loaded => rfl

theorem outputsOf_alike (batch : Matrix Single) (p : Probe) (models : List (Params Single)) :
    p.Alike (outputsOf batch p models).1 := by
  induction models generalizing p with
  | nil => exact .refl p
  | cons model models ih =>
    unfold outputsOf
    split
    · exact .refl p
    · rename_i loaded hl
      split
      · exact load_alike hl
      · exact (load_alike hl).trans (ih loaded)

end Probe

namespace Information

/-- One configuration: the settings agree, and so do the probes but for what is loaded. -/
inductive Alike (r : Information) : Information → Prop where
  | of_probe {probe : Probe} (h : r.probe.Alike probe) : Alike r { r with probe := probe }

theorem Alike.clientTable_congr {r t : Information} (h : r.Alike t) (model : Params Single)
    (updates : Round) : (r.clientTable model updates).2 = (t.clientTable model updates).2 := by
  obtain ⟨hp⟩ := h
  simp only [clientTable, clientOutputs]
  cases updates.mapM model.sub with
  | error fault => rfl
  | ok models => simp only [Probe.outputsOf_congr hp r.batch models]

theorem Alike.round_congr {r t : Information} (h : r.Alike t) (state : State Single)
    (updates : Round) : (r.round state updates).2 = (t.round state updates).2 := by
  have hc := h.clientTable_congr state.model updates
  obtain ⟨hp⟩ := h
  unfold round
  cases Average.check state.model updates with
  | error fault => rfl
  | ok _ => simp only [hc]; rfl

theorem round_alike (r : Information) (state : State Single) (updates : Round) :
    r.Alike (r.round state updates).1 := by
  unfold round
  cases Average.check state.model updates with
  | error fault => exact .of_probe (.refl _)
  | ok _ =>
    apply Alike.of_probe
    show r.probe.Alike (r.clientOutputs state.model updates).1
    unfold clientOutputs
    cases updates.mapM state.model.sub with
    | error fault => exact .refl _
    | ok models => exact Probe.outputsOf_alike r.batch r.probe models

end Information

namespace Rule

/-- Two rules of one configuration. -/
inductive Alike : Rule → Rule → Prop where
  | mean (r : Mean) : Alike (.mean r) (.mean r)
  | central (r : Central) : Alike (.central r) (.central r)
  | information {r t : Information} (h : r.Alike t) : Alike (.information r) (.information t)

def rebuilt : Rule → Rule
  | information r => information { r with probe := r.probe.cleared }
  | r => r

theorem alike_rebuilt (r : Rule) : r.Alike r.rebuilt := by
  cases r with
  | mean m => exact .mean m
  | central c => exact .central c
  | information i => exact .information (.of_probe i.probe.alike_cleared)

theorem Alike.trans {r t u : Rule} (h : r.Alike t) (k : t.Alike u) : r.Alike u := by
  cases h with
  | mean m => exact k
  | central c => exact k
  | information h =>
    cases k with
    | information k =>
      obtain ⟨h⟩ := h
      obtain ⟨k⟩ := k
      exact .information (.of_probe (h.trans k))

theorem Alike.symm {r t : Rule} (h : r.Alike t) : t.Alike r := by
  cases h with
  | mean m => exact .mean m
  | central c => exact .central c
  | information h =>
    obtain ⟨h⟩ := h
    exact .information (.of_probe h.symm)

theorem Alike.round_congr {r t : Rule} (h : r.Alike t) (state : State Single) (updates : Round) :
    (r.round state updates).2 = (t.round state updates).2 := by
  cases h with
  | mean m => rfl
  | central c => rfl
  | information h => exact h.round_congr state updates

theorem round_alike (r : Rule) (state : State Single) (updates : Round) :
    r.Alike (r.round state updates).1 := by
  cases r with
  | mean m => exact .mean m
  | central c => exact .central c
  | information i => exact .information (i.round_alike state updates)

theorem Alike.attempt_congr {r t : Rule} (h : r.Alike t) (state : State Single)
    (updates : Round) : r.attempt state updates = t.attempt state updates := by
  unfold attempt
  rw [h.round_congr]

end Rule

namespace Server

theorem after_alike (s : Server) (rounds : List Round) : s.rule.Alike (s.after rounds).rule := by
  induction rounds generalizing s with
  | nil => exact .trans s.rule.alike_rebuilt s.rule.alike_rebuilt.symm
  | cons updates rest ih =>
    have h := s.rule.round_alike s.state updates
    rw [← run_rule] at h
    exact h.trans (ih (s.run updates).1)

theorem trace_eq_of_alike {s : Server} {r : Rule} (h : s.rule.Alike r) (rounds : List Round) :
    s.trace rounds = r.trace s.state rounds := by
  induction rounds generalizing s with
  | nil => rfl
  | cons updates rest ih =>
    have ha := s.rule.round_alike s.state updates
    rw [← run_rule] at ha
    have hr := (run_attempt s updates).trans (h.attempt_congr s.state updates)
    simp only [trace, Rule.trace]
    rw [hr, ih (ha.symm.trans h), ← hr]

theorem trace_congr {s t : Server} (h : s.rule.Alike t.rule) (hs : s.state = t.state)
    (rounds : List Round) : s.trace rounds = t.trace rounds := by
  rw [trace_eq_of_alike h, hs,
    trace_eq_of_alike (t.rule.alike_rebuilt.trans t.rule.alike_rebuilt.symm)]

theorem trace_after_error {s : Server} {updates : Round} {fault : Fault}
    (h : (s.run updates).2.result = .error fault) (rounds : List Round) :
    (s.run updates).1.trace rounds = s.trace rounds := by
  have ha := s.rule.round_alike s.state updates
  rw [← run_rule] at ha
  refine trace_congr ha.symm ?_ rounds
  rw [(run_of_error (run_error_iff.mp h)).1]

theorem trace_completed (s : Server) (rounds : List Round) :
    s.trace (s.completed rounds) = (s.trace rounds).filter fun v => v.1.isOk := by
  induction rounds generalizing s with
  | nil => rfl
  | cons updates rest ih =>
    cases h : (s.run updates).2.result with
    | ok model =>
      rw [completed_of_ok h, trace, trace, ih, h]
      rfl
    | error fault =>
      rw [completed_of_error h, ← trace_after_error h, trace, ih, h]
      rfl

/-- A run is a fold of attempts of a rebuilt rule over the states. So a call that failed can be left
out, a run can be cut anywhere and go on in a new server, and no later round depends on what the
rounds before it loaded into the probe, whether they failed or not. -/
theorem trace_forgets_probe (s : Server) :
    (s.rule.Alike s.rule.rebuilt ∧
      ∀ rounds r, s.rule.Alike r → s.trace rounds = r.trace s.state rounds) ∧
    (∀ before updates later fault, ((s.after before).run updates).2.result = .error fault →
      s.trace (before ++ updates :: later) = s.trace before ++
        (.error fault, (s.after before).state) :: (s.after before).trace later ∧
      s.trace (before ++ later) = s.trace before ++ (s.after before).trace later) ∧
    (∀ rounds, s.trace (s.completed rounds) = (s.trace rounds).filter fun v => v.1.isOk) ∧
    (∀ before later r, s.rule.Alike r →
      s.trace (before ++ later) = s.trace before ++ (start r (s.after before).state).trace later) ∧
    ∀ rounds state updates,
      ((s.after rounds).rule.round state updates).2 = (s.rule.rebuilt.round state updates).2 := by
  refine ⟨⟨s.rule.alike_rebuilt, fun rounds r h => trace_eq_of_alike h rounds⟩, ?_,
    s.trace_completed, ?_, ?_⟩
  · intro before updates later fault h
    have hs : ((s.after before).run updates).1.state = (s.after before).state := by
      rw [(run_of_error (run_error_iff.mp h)).1]
    refine ⟨?_, s.trace_append before later⟩
    rw [trace_append, trace, h, hs, trace_after_error h]
  · intro before later r h
    have ha : (s.after before).rule.Alike (start r (s.after before).state).rule :=
      (s.after_alike before).symm.trans h
    rw [trace_append, trace_congr ha rfl]
  · intro rounds state updates
    exact ((s.after_alike rounds).symm.trans s.rule.alike_rebuilt).round_congr state updates

def twofold : Information :=
  ⟨.zeros 1 2 .identity, .constant 1 1 (.ofNat 1), .ofNat 1, .ofNat 0, .ofNat 2, false⟩

def weights (a b : Nat) : Params Single :=
  ⟨[.ofMatrix (.ofFn 1 2 fun _ j => .ofNat (if j = 0 then a else b)), .vector [.zero, .zero]]⟩

theorem trace_forgets_probe_constant :
    ∃ fault, (start (.information twofold) (.fresh (weights 0 0))).trace
        [[weights 1 2, weights 3 3], [weights 1 2, weights 5 4]]
      = (.error fault, .fresh (weights 0 0)) ::
        (start (.information twofold) (.fresh (weights 0 0))).trace
          [[weights 1 2, weights 5 4]] := by
  obtain ⟨fault, hf⟩ := error_of_isOk (show (((start (.information twofold)
    (.fresh (weights 0 0))).after []).run [weights 1 2, weights 3 3]).2.result.isOk = false by
      decide +kernel)
  obtain ⟨-, hleft, -⟩ := trace_forgets_probe (start (.information twofold) (.fresh (weights 0 0)))
  have h := (hleft [] [weights 1 2, weights 3 3] [[weights 1 2, weights 5 4]] fault hf).1
  rw [after, List.foldl_nil, List.nil_append] at h
  exact ⟨fault, h⟩

end Server

end Federation
