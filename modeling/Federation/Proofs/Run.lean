import Federation.Server

/-!
# Runs

A run is a list of rounds. A caller sees the result of each round and the state after it; the
events, the audit and the rule itself are left out of a trace. Beside the server stands a fold that
keeps the state only and uses one rule for all rounds.
-/

set_option autoImplicit false

namespace Federation

abbrev Round := List (Params Single)

abbrev Visible := Except Fault (Params Single) × State Single

theorem error_of_isOk {α : Type} {x : Except Fault α} (h : x.isOk = false) :
    ∃ fault, x = .error fault := by
  cases x with
  | error fault => exact ⟨fault, rfl⟩
  | ok a => cases h

namespace Rule

/-- One round by a rule that is thrown away after it. A failed round hands on the state that it was
given. -/
def attempt (r : Rule) (state : State Single) (updates : Round) : Visible :=
  match (r.round state updates).2.result with
  | .ok outcome => (.ok outcome.state.model, outcome.state)
  | .error fault => (.error fault, state)

/-- Each round is an attempt of the same rule on the state that the round before it left. -/
def trace (r : Rule) : State Single → List Round → List Visible
  | _, [] => []
  | state, updates :: rest =>
    r.attempt state updates :: r.trace (r.attempt state updates).2 rest

theorem attempt_of_error {r : Rule} {state : State Single} {updates : Round} {fault : Fault}
    (h : (r.round state updates).2.result = .error fault) :
    r.attempt state updates = (.error fault, state) := by
  unfold attempt
  rw [h]

theorem attempt_of_ok {r : Rule} {state : State Single} {updates : Round} {outcome : Outcome}
    (h : (r.round state updates).2.result = .ok outcome) :
    r.attempt state updates = (.ok outcome.state.model, outcome.state) := by
  unfold attempt
  rw [h]

end Rule

namespace Server

def after (s : Server) (rounds : List Round) : Server :=
  rounds.foldl (fun s updates => (s.run updates).1) s

def trace (s : Server) : List Round → List Visible
  | [] => []
  | updates :: rest =>
    ((s.run updates).2.result, (s.run updates).1.state) :: (s.run updates).1.trace rest

/-- The rounds of a run that did not fail. -/
def completed (s : Server) : List Round → List Round
  | [] => []
  | updates :: rest =>
    if (s.run updates).2.result.isOk then updates :: (s.run updates).1.completed rest
    else (s.run updates).1.completed rest

theorem after_cons (s : Server) (updates : Round) (rest : List Round) :
    s.after (updates :: rest) = (s.run updates).1.after rest := rfl

theorem after_append (s : Server) (before later : List Round) :
    s.after (before ++ later) = (s.after before).after later := by
  unfold after
  exact List.foldl_append

theorem trace_append (s : Server) (before later : List Round) :
    s.trace (before ++ later) = s.trace before ++ (s.after before).trace later := by
  induction before generalizing s with
  | nil => rfl
  | cons updates before ih =>
    simp only [List.cons_append, trace, after_cons]
    rw [ih]

theorem completed_of_error {s : Server} {updates : Round} {fault : Fault}
    (h : (s.run updates).2.result = .error fault) (rest : List Round) :
    s.completed (updates :: rest) = (s.run updates).1.completed rest := by
  simp [completed, h, Except.isOk, Except.toBool]

theorem completed_of_ok {s : Server} {updates : Round} {model : Params Single}
    (h : (s.run updates).2.result = .ok model) (rest : List Round) :
    s.completed (updates :: rest) = updates :: (s.run updates).1.completed rest := by
  simp [completed, h, Except.isOk, Except.toBool]

theorem run_of_error {s : Server} {updates : Round} {fault : Fault}
    (h : (s.rule.round s.state updates).2.result = .error fault) :
    (s.run updates).1 = { s with rule := (s.rule.round s.state updates).1 } ∧
      (s.run updates).2.result = .error fault := by
  simp [run, h]

theorem run_of_ok {s : Server} {updates : Round} {outcome : Outcome}
    (h : (s.rule.round s.state updates).2.result = .ok outcome) :
    (s.run updates).1 = { rule := (s.rule.round s.state updates).1
                          state := outcome.state
                          round := s.round + 1
                          audit := s.audit.push (s.entry updates.length outcome) } ∧
      (s.run updates).2.result = .ok outcome.state.model := by
  simp [run, h]

theorem run_rule (s : Server) (updates : Round) :
    (s.run updates).1.rule = (s.rule.round s.state updates).1 := by
  cases h : (s.rule.round s.state updates).2.result with
  | error fault => rw [(run_of_error h).1]
  | ok outcome => rw [(run_of_ok h).1]

theorem run_attempt (s : Server) (updates : Round) :
    ((s.run updates).2.result, (s.run updates).1.state) = s.rule.attempt s.state updates := by
  cases h : (s.rule.round s.state updates).2.result with
  | error fault =>
    obtain ⟨hs, hr⟩ := run_of_error h
    rw [Rule.attempt_of_error h, hr, hs]
  | ok outcome =>
    obtain ⟨hs, hr⟩ := run_of_ok h
    rw [Rule.attempt_of_ok h, hr, hs]

theorem run_error_iff {s : Server} {updates : Round} {fault : Fault} :
    (s.run updates).2.result = .error fault ↔
      (s.rule.round s.state updates).2.result = .error fault := by
  cases h : (s.rule.round s.state updates).2.result with
  | error e => simp [(run_of_error h).2]
  | ok outcome => simp [(run_of_ok h).2]

end Server

theorem Server.run_nil (s : Server) : (s.run []).2.result = .error .emptyUpdates := by
  rw [run_error_iff]
  cases s.rule <;> rfl

def steady : Central := ⟨.ofNat 1, .zero, none⟩

/-- A round of four clients, one with too few, and four again. -/
def interrupted : List Round := [4, 1, 4].map fun n => List.replicate n (.vector [.ofNat n])

end Federation
