import Federation.Proofs.Bookkeeping
import Federation.Proofs.Outcomes
import Federation.Proofs.Probes
import Federation.Proofs.Scores

/-!
# Obstacles to an informative majority

Nine things can stop a round by the informative majority, and they are met in one order. The probe
looks at layouts only, so it refuses all models of a round or none. All its outputs have one size
and all scores are finite, so neither the comparison of outputs nor the standardization of the
scores finds anything wrong that the earlier steps have let through.
-/

set_option autoImplicit false

namespace Federation

theorem State.nesterov_decided {s : State Single} {direction : Params Single} (beta rate : Single)
    (h : direction.layout = s.model.layout) :
    if s.momentum.layout = s.model.layout then ∃ next, s.nesterov direction beta rate = .ok next
    else s.nesterov direction beta rate
      = .error (.shape (.layouts s.momentum.layout s.model.layout)) := by
  split
  · rename_i hm
    exact nesterov_exists beta rate hm h
  · rename_i hm
    have hs := Params.layout_scale beta s.momentum
    have he : (s.momentum.scale beta).addScaled (-rate) direction
        = .error (.shape (.layouts s.momentum.layout s.model.layout)) := by
      rw [Params.addScaled, dif_neg (by rw [hs, h]; exact hm), hs, h]
    rw [nesterov, he]
    rfl

namespace Information

open Statistics

def arrived (model : Params Single) (updates : List (Params Single)) : List (Params Single) :=
  updates.filterMap fun u => (model.sub u).toOption

def outputs (r : Information) (model : Params Single) (updates : List (Params Single)) :
    List (Matrix Single) :=
  (arrived model updates).filterMap (r.probe.output? r.batch)

variable {r : Information} {state : State Single} {model : Params Single}
  {updates : List (Params Single)} {fault : Fault}

theorem mapM_sub (h : ∀ u ∈ updates, u.layout = model.layout) :
    updates.mapM model.sub = .ok (arrived model updates) ∧
      (∀ m ∈ arrived model updates, m.layout = model.layout) ∧
      (arrived model updates).length = updates.length := by
  have hsub : ∀ u ∈ updates, ∃ m, model.sub u = .ok m := fun u hu =>
    let ⟨m, hm, _⟩ := Params.addScaled_exists (-Scalar.one) (h u hu).symm
    ⟨m, hm⟩
  obtain ⟨models, hm⟩ := mapM_ok_of_forall hsub
  have hall := mapM_ok_iff.mp hm
  have he : arrived model updates = models :=
    filterMap_of_forall₂ (hall.imp fun u m hu => by rw [hu]; rfl)
  refine ⟨he ▸ hm, fun m hmem => ?_, he ▸ hall.length_eq.symm⟩
  obtain ⟨u, -, hu⟩ := List.mem_filterMap.mp hmem
  cases hs : model.sub u with
  | error fault => simp [hs, Except.toOption] at hu
  | ok n =>
    simp only [hs, Except.toOption, Option.some.injEq] at hu
    exact hu ▸ (Params.addScaled_layout hs).2

theorem clientTable_of_obstacle (hne : updates ≠ []) (hl : ∀ u ∈ updates, u.layout = model.layout)
    (h : r.probe.obstacle? r.batch model.layout = some fault) :
    (r.clientTable model updates).2.result = .error fault := by
  obtain ⟨hm, hlayout, hlen⟩ := mapM_sub hl
  have hne' : arrived model updates ≠ [] := by
    rw [← List.length_pos_iff, hlen]
    exact List.length_pos_iff.mpr hne
  have ho := Probe.outputsOf_of_obstacle hne' hlayout h
  simp only [clientTable, clientOutputs, hm, Logged.result_bind, Logged.result_lift, ho]
  rfl

theorem clientTable_of_no_obstacle (hl : ∀ u ∈ updates, u.layout = model.layout)
    (h : r.probe.obstacle? r.batch model.layout = none) :
    (r.clientTable model updates).2.result = (table (r.outputs model updates)).result ∧
      (r.outputs model updates).length = updates.length ∧
      ∀ o ∈ r.outputs model updates, o.size = (r.batch.height, r.probe.outputs) := by
  obtain ⟨hm, hlayout, hlen⟩ := mapM_sub hl
  obtain ⟨outputs, ho, hall⟩ := Probe.outputsOf_of_no_obstacle hlayout h
  have he : r.outputs model updates = outputs := filterMap_of_forall₂ hall
  refine ⟨?_, by rw [he, ← hall.length_eq, hlen], fun o hmem => ?_⟩
  · simp only [clientTable, clientOutputs, hm, Logged.result_bind, Logged.result_lift, ho, he]
    rfl
  · obtain ⟨m, hmm, hout⟩ := List.mem_filterMap.mp hmem
    rw [← hlayout m hmm] at h
    obtain ⟨w, b, loaded, output, -, hok, -, hf, hsize, -⟩ := Probe.output_of_no_obstacle h
    rw [Probe.output?_eq hok hf] at hout
    exact Option.some.inj hout ▸ hsize

/-- What can stop a round after its scores have been standardized: scores that do not scatter, a
threshold that keeps nobody, or a momentum that the model does not fit. -/
def editObstacle? (r : Information) (state : State Single) (edit : TwoSigma Double) :
    Option Fault :=
  if edit.isDegenerate ∧ r.strict then some (.statistics (.zeroDeviation edit.median))
  else if (edit.partition r.threshold).1 = [] then some .emptySelection
  else if state.momentum.layout = state.model.layout then none
  else some (.shape (.layouts state.momentum.layout state.model.layout))

theorem conclude_decided {scores : List Double} {edit : TwoSigma Double}
    (hl : ∀ u ∈ updates, u.layout = state.model.layout) (hlen : scores.length = updates.length)
    (he : TwoSigma.ofValues scores = .ok edit) :
    Decides (r.editObstacle? state edit) (r.conclude state updates scores).result fun outcome =>
      (outcome.selected, outcome.rejected) = edit.partition r.threshold ∧
        outcome.scores = some scores := by
  rw [result_conclude, he, except_bind_ok]
  unfold Decides editObstacle?
  by_cases hs : edit.isDegenerate = true ∧ r.strict = true
  · rw [if_pos hs, if_pos hs]
  rw [if_neg hs, if_neg hs]
  by_cases hkept : (edit.partition r.threshold).1 = []
  · rw [if_pos hkept, hkept]
    rfl
  rw [if_neg hkept]
  have hlt : ∀ i ∈ (edit.partition r.threshold).1, i < updates.length := by
    intro i hi
    rw [partition_split he, hlen] at hi
    exact List.mem_range.mp (List.mem_of_mem_filter hi)
  obtain ⟨mean, hm, hml⟩ := Average.selected_exists hkept hlt hl
  have hn := State.nesterov_decided r.beta r.rate hml
  rw [hm, except_bind_ok]
  by_cases hmom : state.momentum.layout = state.model.layout
  · rw [if_pos hmom] at hn ⊢
    obtain ⟨next, hn⟩ := hn
    rw [hn]
    exact ⟨_, rfl, rfl, rfl⟩
  · rw [if_neg hmom] at hn ⊢
    rw [hn]
    rfl

theorem result_round (r : Information) (state : State Single) (updates : List (Params Single)) :
    (r.round state updates).2.result = match Average.obstacle? state.model updates with
      | some fault => .error fault
      | none => (r.clientTable state.model updates).2.result >>= fun t =>
          (r.conclude state updates (clientScores t)).result := by
  unfold round
  rw [Average.check_eq]
  cases Average.obstacle? state.model updates with
  | some fault => rfl
  | none => exact Logged.result_bind _ _

theorem round_of_refused (h : Average.obstacle? state.model updates = none)
    (hp : r.probe.obstacle? r.batch state.model.layout = some fault) :
    (r.round state updates).2.result = .error fault := by
  obtain ⟨hne, hl⟩ := Average.obstacle?_eq_none_iff.mp h
  rw [result_round, h, clientTable_of_obstacle hne hl hp]
  rfl

theorem round_of_uncorrelated (h : Average.obstacle? state.model updates = none)
    (hp : r.probe.obstacle? r.batch state.model.layout = none)
    (hc : ¬(r.outputs state.model updates).Pairwise Correlated) :
    (r.round state updates).2.result = .error (.statistics .constantOutputs) := by
  obtain ⟨ht, -, hsize⟩ := clientTable_of_no_obstacle (Average.obstacle?_eq_none_iff.mp h).2 hp
  rw [result_round, h, ht, (table_decided hsize).2 hc]
  rfl

def edit? (r : Information) (model : Params Single) (updates : List (Params Single)) :
    Option (TwoSigma Double) :=
  (table (r.outputs model updates)).result.toOption.bind fun t =>
    (TwoSigma.ofValues (clientScores t)).toOption

theorem round_of_correlated (h : Average.obstacle? state.model updates = none)
    (hp : r.probe.obstacle? r.batch state.model.layout = none)
    (hc : (r.outputs state.model updates).Pairwise Correlated) :
    ∃ edit, r.edit? state.model updates = some edit ∧
      Decides (r.editObstacle? state edit) (r.round state updates).2.result fun outcome =>
        (outcome.selected, outcome.rejected) = edit.partition r.threshold := by
  obtain ⟨hne, hl⟩ := Average.obstacle?_eq_none_iff.mp h
  obtain ⟨ht, hlen, hsize⟩ := clientTable_of_no_obstacle hl hp
  obtain ⟨t, htable⟩ := (table_decided hsize).1 hc
  rw [htable] at ht
  have hscores : (clientScores t).length = updates.length := clientScores_length ht
  have hnil : clientScores t ≠ [] := by
    rw [← List.length_pos_iff, hscores]
    exact List.length_pos_iff.mpr hne
  obtain ⟨edit, he⟩ := TwoSigma.ofValues_exists hnil (clientScores_finite htable)
  refine ⟨edit, ?_, ?_⟩
  · rw [edit?, htable]
    exact congrArg Except.toOption he
  · rw [result_round, h, ht, except_bind_ok]
    exact (conclude_decided hl hscores he).mono fun outcome ho => ho.1

/-- What stops a round, in the order in which it is met. -/
def obstacle? (r : Information) (state : State Single) (updates : List (Params Single)) :
    Option Fault :=
  Average.obstacle? state.model updates <|>
    r.probe.obstacle? r.batch state.model.layout <|>
    (if (r.outputs state.model updates).Pairwise Correlated then none
      else some (.statistics .constantOutputs)) <|>
    (r.edit? state.model updates).bind (r.editObstacle? state)

theorem round_decides (r : Information) (state : State Single) (updates : List (Params Single)) :
    Decides (r.obstacle? state updates) (r.round state updates).2.result fun outcome =>
      ∃ edit, r.edit? state.model updates = some edit ∧
        (outcome.selected, outcome.rejected) = edit.partition r.threshold := by
  unfold obstacle?
  cases h : Average.obstacle? state.model updates with
  | some fault =>
    rw [result_round, h]
    exact rfl
  | none =>
    cases hp : r.probe.obstacle? r.batch state.model.layout with
    | some fault => exact round_of_refused h hp
    | none =>
      by_cases hc : (r.outputs state.model updates).Pairwise Correlated
      · obtain ⟨edit, he, hd⟩ := round_of_correlated h hp hc
        rw [if_pos hc, he]
        exact hd.mono fun outcome ho => ⟨edit, rfl, ho⟩
      · rw [if_neg hc]
        exact round_of_uncorrelated h hp hc

theorem obstacle?_cases (h : r.obstacle? state updates = some fault) :
    Average.obstacle? state.model updates = some fault ∨
      Average.obstacle? state.model updates = none ∧
        (r.probe.obstacle? r.batch state.model.layout = some fault ∨
          fault = .statistics .constantOutputs ∨
          ∃ edit, r.editObstacle? state edit = some fault) := by
  unfold obstacle? at h
  cases hu : Average.obstacle? state.model updates with
  | some first =>
    rw [hu] at h
    exact Or.inl h
  | none =>
    rw [hu] at h
    refine Or.inr ⟨rfl, ?_⟩
    cases hp : r.probe.obstacle? r.batch state.model.layout with
    | some first =>
      rw [hp] at h
      exact Or.inl h
    | none =>
      rw [hp] at h
      by_cases hc : (r.outputs state.model updates).Pairwise Correlated
      · rw [if_pos hc] at h
        obtain ⟨edit, -, he⟩ := Option.bind_eq_some_iff.mp h
        exact Or.inr (Or.inr ⟨edit, he⟩)
      · rw [if_neg hc] at h
        exact Or.inr (Or.inl (Option.some.inj h).symm)

theorem editObstacle?_cases {edit : TwoSigma Double} (h : r.editObstacle? state edit = some fault) :
    fault = .statistics (.zeroDeviation edit.median) ∨ fault = .emptySelection ∨
      fault = .shape (.layouts state.momentum.layout state.model.layout) := by
  unfold editObstacle? at h
  split at h
  · exact Or.inl (Option.some.inj h).symm
  · split at h
    · exact Or.inr (Or.inl (Option.some.inj h).symm)
    · split at h
      · cases h
      · exact Or.inr (Or.inr (Option.some.inj h).symm)

theorem isPanic_of_error (h : (r.round state updates).2.result = .error fault) :
    fault.isPanic = false := by
  rcases obstacle?_cases (((r.round_decides state updates).error_iff fault).mp h) with
    hu | ⟨-, hp | rfl | ⟨edit, he⟩⟩
  · rcases Average.obstacle?_cases hu with rfl | ⟨client, rfl⟩ <;> rfl
  · have hr := Probe.obstacle?_isRefusal hp
    cases fault <;> first | rfl | cases hr
  · rfl
  · rcases editObstacle?_cases he with rfl | rfl | rfl <;> rfl

theorem refused_iff (h : fault.isRefusal = true) :
    (r.round state updates).2.result = .error fault ↔
      Average.obstacle? state.model updates = none ∧
        r.probe.obstacle? r.batch state.model.layout = some fault := by
  constructor
  · intro hr
    rcases obstacle?_cases (((r.round_decides state updates).error_iff fault).mp hr) with
      hu | ⟨hu, hp | rfl | ⟨edit, he⟩⟩
    · rcases Average.obstacle?_cases hu with rfl | ⟨client, rfl⟩ <;> cases h
    · exact ⟨hu, hp⟩
    · cases h
    · rcases editObstacle?_cases he with rfl | rfl | rfl <;> cases h
  · rintro ⟨hu, hp⟩
    exact round_of_refused hu hp

theorem refused_of_perm {r' : Information} {state' : State Single}
    {updates' : List (Params Single)} (hs : r.probe.weights.size = r'.probe.weights.size)
    (hb : r.batch.width = r'.batch.width) (hm : state.model.layout = state'.model.layout)
    (hp : (updates.map Params.layout).Perm (updates'.map Params.layout))
    (h : fault.isRefusal = true) (hr : (r.round state updates).2.result = .error fault) :
    (r'.round state' updates').2.result = .error fault := by
  obtain ⟨hu, ho⟩ := (refused_iff h).mp hr
  rw [Probe.obstacle?_congr hs hb, hm] at ho
  exact (refused_iff h).mpr ⟨Average.obstacle?_eq_none_of_perm hm hp hu, ho⟩

theorem possible_of_error (h : (r.round state updates).2.result = .error fault) :
    (∀ first second, fault ≠ .shape (.outputs first second)) ∧
      (∀ score, fault ≠ .statistics (.nonFinite score)) ∧ fault ≠ .statistics .noScores := by
  rcases obstacle?_cases (((r.round_decides state updates).error_iff fault).mp h) with
    hu | ⟨-, hp | rfl | ⟨edit, he⟩⟩
  · rcases Average.obstacle?_cases hu with rfl | ⟨client, rfl⟩ <;> simp
  · have hr := Probe.obstacle?_isRefusal hp
    have hne : ∀ {other : Fault}, other.isRefusal = false → fault ≠ other := by
      rintro other ho rfl
      rw [ho] at hr
      cases hr
    exact ⟨fun _ _ => hne rfl, fun _ => hne rfl, hne rfl⟩
  · simp
  · rcases editObstacle?_cases he with rfl | rfl | rfl <;> simp

/-- How a round by the informative majority ends, for all inputs. The probe refuses a round for
sizes and layouts alone, whatever the entries are and whichever client comes first. -/
theorem round_settled (r : Information) (state : State Single) (updates : List (Params Single)) :
    Decides (r.obstacle? state updates) (r.round state updates).2.result (fun outcome =>
      ∃ edit, r.edit? state.model updates = some edit ∧
        (outcome.selected, outcome.rejected) = edit.partition r.threshold) ∧
    (Average.obstacle? state.model updates = none →
      r.probe.obstacle? r.batch state.model.layout = none →
      (r.outputs state.model updates).length = updates.length) ∧
    (∀ fault, fault.isRefusal = true →
      ((r.round state updates).2.result = .error fault ↔
        Average.obstacle? state.model updates = none ∧
          r.probe.obstacle? r.batch state.model.layout = some fault) ∧
      ∀ (r' : Information) (state' : State Single) (updates' : List (Params Single)),
        r.probe.weights.size = r'.probe.weights.size → r.batch.width = r'.batch.width →
        state.model.layout = state'.model.layout →
        (updates.map Params.layout).Perm (updates'.map Params.layout) →
        ((r.round state updates).2.result = .error fault ↔
          (r'.round state' updates').2.result = .error fault)) ∧
    ∀ fault, (r.round state updates).2.result = .error fault →
      (∀ first second, fault ≠ .shape (.outputs first second)) ∧
      (∀ score, fault ≠ .statistics (.nonFinite score)) ∧ fault ≠ .statistics .noScores :=
  ⟨r.round_decides state updates,
    fun h hp => (clientTable_of_no_obstacle (Average.obstacle?_eq_none_iff.mp h).2 hp).2.1,
    fun _ h => ⟨refused_iff h, fun _ _ _ hs hb hm hp =>
      ⟨refused_of_perm hs hb hm hp h, refused_of_perm hs.symm hb.symm hm.symm hp.symm h⟩⟩,
    fun _ => possible_of_error⟩

def narrow (x : Single) : Information :=
  ⟨.zeros 1 1 .identity, .constant 1 1 x, .ofNat 1, .ofNat 0, defaultThreshold, false⟩

theorem round_settled_ranks :
    ((narrow .zero).round (.fresh ⟨[.vector [.zero], .vector [.zero]]⟩)
      [⟨[.vector [.zero], .vector [.zero]]⟩]).2.result = .error (.shape .rank) ∧
    ((narrow .nan).round (.fresh ⟨[.vector [.nan], .vector [.infinity true]]⟩)
      [⟨[.vector [.infinity false], .vector [.nan]]⟩]).2.result = .error (.shape .rank) :=
  have h := (round_settled (narrow .zero) (.fresh ⟨[.vector [.zero], .vector [.zero]]⟩)
    [⟨[.vector [.zero], .vector [.zero]]⟩]).2.2.1 (.shape .rank) rfl
  have hr := h.1.mpr ⟨by decide, by decide⟩
  ⟨hr, (h.2 (narrow .nan) (.fresh ⟨[.vector [.nan], .vector [.infinity true]]⟩)
    [⟨[.vector [.infinity false], .vector [.nan]]⟩] rfl rfl rfl (.refl _)).mp hr⟩

end Information

end Federation
