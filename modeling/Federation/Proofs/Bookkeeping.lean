import Federation.Proofs.Layout
import Federation.Proofs.Pairs
import Federation.Proofs.Run

/-!
# Bookkeeping

Every rule splits the clients of a round by a test on their indices, so the audit of a run divides
the clients of each of its completed rounds into kept and dropped ones. The number of the round, the
length of the audit and the count of completed rounds move together, and a failed round moves none
of them.
-/

set_option autoImplicit false

namespace Federation

/-- What an outcome owes to the state and the updates that it was computed from. The clients are
split by one test, and some client passes it. -/
structure Outcome.Fits (outcome : Outcome) (state : State Single) (updates : Round) : Prop where
  split : ∃ test : Nat → Bool, outcome.selected = (List.range updates.length).filter test ∧
    outcome.rejected = (List.range updates.length).filter fun i => !test i
  selected_ne_nil : outcome.selected ≠ []
  model : outcome.state.model.layout = state.model.layout
  momentum : outcome.state.momentum.layout = state.momentum.layout

theorem filter_not_contains_filter (n : Nat) (test : Nat → Bool) :
    ((List.range n).filter fun i => !((List.range n).filter test).contains i)
      = (List.range n).filter fun i => !test i := by
  apply List.filter_congr
  intro i hi
  simp [List.mem_range.mp hi]

theorem Mean.round_fits {r : Mean} {state : State Single} {updates : Round} {outcome : Outcome}
    (h : (r.round state updates).result = .ok outcome) : outcome.Fits state updates := by
  obtain ⟨mean, model, hc, -, ha, rfl⟩ := Mean.round_ok_iff.mp h
  have hn : updates ≠ [] := (Average.check_ok_iff.mp hc).1
  refine ⟨⟨fun _ => true, by simp, by simp⟩, ?_, (Params.addScaled_layout ha).2, rfl⟩
  simpa using hn

theorem Central.roundBy_fits {sort : Sorting} (hsort : sort.Permutes) {r : Central}
    {state : State Single} {updates : Round} {outcome : Outcome}
    (h : (r.roundBy sort state updates).result = .ok outcome) : outcome.Fits state updates := by
  obtain ⟨selected, scores, mean, model, -, hs, hm, ha, rfl⟩ := Central.roundBy_ok_iff.mp h
  obtain ⟨-, -, order, -, -, rfl⟩ := Central.selectBy_order hsort hs
  exact ⟨⟨_, rfl, filter_not_contains_filter _ _⟩, (Average.selected_layout hm).1,
    (Params.addScaled_layout ha).2, rfl⟩

namespace Information

theorem outputsOf_length {batch : Matrix Single} {p : Probe} {models : List (Params Single)}
    {outputs : List (Matrix Single)} (h : (Probe.outputsOf batch p models).2 = .ok outputs) :
    outputs.length = models.length := by
  induction models generalizing p outputs with
  | nil => cases h; rfl
  | cons model models ih =>
    obtain ⟨loaded, output, rest, -, -, hr, rfl⟩ := Probe.outputsOf_cons_ok_iff.mp h
    rw [List.length_cons, List.length_cons, ih hr]

theorem clientScores_length {r : Information} {model : Params Single} {updates : Round}
    {table : Matrix Double} (h : (r.clientTable model updates).2.result = .ok table) :
    (clientScores table).length = updates.length := by
  simp only [clientTable, Logged.result_bind_ok_iff, Logged.result_lift] at h
  obtain ⟨outputs, ho, ht⟩ := h
  have hh : table.height = outputs.length := by
    unfold Information.table at ht
    rw [Pairwise.result_table] at ht
    exact Pairwise.height_table ht
  unfold clientOutputs at ho
  cases hm : updates.mapM model.sub with
  | error fault => simp [hm] at ho
  | ok models =>
    rw [hm] at ho
    have hl := (mapM_ok_iff.mp hm).length_eq
    have hs : (clientScores table).length = table.height := by simp [clientScores, Matrix.height]
    rw [hs, hh, outputsOf_length ho, hl]

theorem partition_split {values : List Double} {edit : Statistics.TwoSigma Double}
    (h : Statistics.TwoSigma.ofValues values = .ok edit) (threshold : Double) :
    edit.partition threshold =
      ((List.range values.length).filter (edit.keeps threshold),
        (List.range values.length).filter fun i => !edit.keeps threshold i) := by
  have hl := Statistics.standardize?_length (Statistics.TwoSigma.ofValues_ok_iff.mp h).2
  unfold Statistics.TwoSigma.partition
  rw [hl, List.partition_eq_filter_filter]
  rfl

theorem round_fits {r : Information} {state : State Single} {updates : Round} {outcome : Outcome}
    (h : (r.round state updates).2.result = .ok outcome) : outcome.Fits state updates := by
  obtain ⟨table, -, ht, hc⟩ := round_ok_iff.mp h
  obtain ⟨edit, mean, next, he, -, hm, hn, rfl⟩ := conclude_ok_iff.mp hc
  obtain ⟨-, -, hx, hy⟩ := State.nesterov_layout hn
  have hp := partition_split he r.threshold
  rw [clientScores_length ht] at hp
  exact ⟨⟨edit.keeps r.threshold, by rw [hp], by rw [hp]⟩, (Average.selected_layout hm).1, hx, hy⟩

end Information

theorem Rule.round_fits {r : Rule} {state : State Single} {updates : Round} {outcome : Outcome}
    (h : (r.round state updates).2.result = .ok outcome) : outcome.Fits state updates := by
  cases r with
  | mean m => exact Mean.round_fits h
  | central c => exact Central.roundBy_fits Sorting.standard_permutes h
  | information i => exact Information.round_fits h

namespace Audit

/-- The lists of an entry are ascending and divide the clients of the round among them, and some
client was kept. -/
structure Entry.Divides (e : Entry) : Prop where
  selected_ascending : e.selected.Pairwise (· < ·)
  rejected_ascending : e.rejected.Pairwise (· < ·)
  disjoint : e.selected.Disjoint e.rejected
  together : ∀ i, i ∈ e.selected ∨ i ∈ e.rejected ↔ i < e.clients
  selected_ne_nil : e.selected ≠ []

theorem Entry.Divides.count {e : Entry} (h : e.Divides) (i : Nat) :
    (if e.rejected.contains i then 1 else 0) + (if e.selected.contains i then 1 else 0)
      = if i < e.clients then 1 else 0 := by
  have ht := h.together i
  by_cases hs : i ∈ e.selected
  · have hr : i ∉ e.rejected := h.disjoint hs
    have hi : i < e.clients := ht.mp (Or.inl hs)
    simp [hs, hr, hi]
  · by_cases hr : i ∈ e.rejected
    · have hi : i < e.clients := ht.mp (Or.inr hr)
      simp [hs, hr, hi]
    · have hi : ¬ i < e.clients := fun hi => (ht.mpr hi).elim hs hr
      simp [hs, hr, hi]

theorem Log.rejectionCount_add (log : Log) (h : ∀ e ∈ log.entries, e.Divides) (i : Nat) :
    log.rejectionCount i + log.entries.countP (fun e => e.selected.contains i)
      = log.entries.countP fun e => decide (i < e.clients) := by
  obtain ⟨entries⟩ := log
  unfold rejectionCount
  induction entries with
  | nil => rfl
  | cons e rest ih =>
    have hc := (h e (by simp)).count i
    have hr := ih fun e' he => h e' (by simp [he])
    simp only [List.countP_cons, decide_eq_true_eq] at hr ⊢
    omega

end Audit

theorem Outcome.Fits.divides {outcome : Outcome} {state : State Single} {updates : Round}
    (h : outcome.Fits state updates) (s : Server) :
    (s.entry updates.length outcome).Divides := by
  obtain ⟨test, hs, hr⟩ := h.split
  have hl : (List.range updates.length).Pairwise (· < ·) := List.pairwise_lt_range
  refine ⟨?_, ?_, ?_, ?_, h.selected_ne_nil⟩
  · simpa only [Server.entry, hs] using hl.filter test
  · simpa only [Server.entry, hr] using hl.filter _
  · simp only [Server.entry, hs, hr]
    intro i hi hj
    simp only [List.mem_filter] at hi hj
    simp [hi.2] at hj
  · intro i
    simp only [Server.entry, hs, hr, List.mem_filter, List.mem_range]
    cases test i <;> simp

namespace Server

/-- The books of a server after the given rounds have been completed, by a rule of the given method
on a model of the given layout. -/
structure Booked (method : Method) (layout : List Shape) (done : List Round) (s : Server) :
    Prop where
  rule_method : s.rule.method = method
  round_eq : s.round = done.length
  length_eq : s.audit.length = done.length
  entries_at : ∀ (k : Nat) (e : Audit.Entry), s.audit.entries[k]? = some e →
    e.round = k ∧ e.method = method.name ∧ e.Divides ∧
      ∃ updates : Round, done[k]? = some updates ∧ e.clients = updates.length
  model_layout : s.state.model.layout = layout

theorem round_method (r : Rule) (state : State Single) (updates : Round) :
    (r.round state updates).1.method = r.method := by
  cases r <;> rfl

theorem Booked.push {method : Method} {layout : List Shape} {done : List Round} {s : Server}
    {updates : Round} {outcome : Outcome} (hb : Booked method layout done s)
    (h : (s.rule.round s.state updates).2.result = .ok outcome) :
    Booked method layout (done ++ [updates]) (s.run updates).1 := by
  have hf := Rule.round_fits h
  have hl : s.audit.entries.length = done.length := hb.length_eq
  rw [(run_of_ok h).1]
  refine ⟨?_, ?_, ?_, ?_, hf.model.trans hb.model_layout⟩
  · rw [← hb.rule_method]
    exact round_method s.rule s.state updates
  · simp [hb.round_eq]
  · simp [Audit.Log.length, Audit.Log.push, hl]
  · intro k e he
    simp only [Audit.Log.push] at he
    rcases Nat.lt_trichotomy k done.length with hk | hk | hk
    · rw [List.getElem?_append_left (by omega)] at he
      obtain ⟨hr, hm, hd, w, hw, hc⟩ := hb.entries_at k e he
      exact ⟨hr, hm, hd, w, by rw [List.getElem?_append_left hk, hw], hc⟩
    · subst hk
      rw [← hl, List.getElem?_concat_length] at he
      cases he
      exact ⟨hb.round_eq, by rw [← hb.rule_method]; rfl, hf.divides s, updates, by simp, rfl⟩
    · rw [List.getElem?_append_right (by omega), List.getElem?_eq_none (by simp; omega)] at he
      cases he

theorem Booked.after {method : Method} {layout : List Shape} {done : List Round} {s : Server}
    (hb : Booked method layout done s) (rounds : List Round) :
    Booked method layout (done ++ s.completed rounds) (s.after rounds) := by
  induction rounds generalizing s done with
  | nil => simpa [completed, Server.after] using hb
  | cons updates rest ih =>
    rw [after_cons]
    cases h : (s.rule.round s.state updates).2.result with
    | error fault =>
      obtain ⟨hs, hr⟩ := run_of_error h
      rw [completed_of_error hr]
      apply ih
      rw [hs]
      exact ⟨(round_method s.rule s.state updates).trans hb.rule_method, hb.round_eq, hb.length_eq,
        hb.entries_at, hb.model_layout⟩
    | ok outcome =>
      rw [completed_of_ok (run_of_ok h).2, List.append_cons]
      exact ih (hb.push h)

theorem run_layout (s : Server) (updates : Round) :
    (s.run updates).1.state.model.layout = s.state.model.layout := by
  cases h : (s.rule.round s.state updates).2.result with
  | error fault => rw [(run_of_error h).1]
  | ok outcome =>
    rw [(run_of_ok h).1]
    exact (Rule.round_fits h).model

theorem run_momentum (s : Server) (updates : Round) :
    (s.run updates).1.state.momentum.layout = s.state.momentum.layout := by
  cases h : (s.rule.round s.state updates).2.result with
  | error fault => rw [(run_of_error h).1]
  | ok outcome =>
    rw [(run_of_ok h).1]
    exact (Rule.round_fits h).momentum

theorem after_momentum (s : Server) (rounds : List Round) :
    (s.after rounds).state.momentum.layout = s.state.momentum.layout := by
  induction rounds generalizing s with
  | nil => rfl
  | cons updates rest ih => rw [after_cons, ih, run_momentum]

theorem run_audit_prefix (s : Server) (updates : Round) :
    s.audit.entries <+: (s.run updates).1.audit.entries := by
  cases h : (s.rule.round s.state updates).2.result with
  | error fault =>
    obtain ⟨hs, -⟩ := run_of_error h
    exact hs ▸ List.prefix_refl _
  | ok outcome =>
    rw [(run_of_ok h).1]
    exact List.prefix_append _ _

theorem after_audit_prefix (s : Server) (rounds : List Round) :
    s.audit.entries <+: (s.after rounds).audit.entries := by
  induction rounds generalizing s with
  | nil => exact List.prefix_refl _
  | cons updates rest ih => exact (s.run_audit_prefix updates).trans (ih _)

theorem start_booked (rule : Rule) (state : State Single) :
    Booked rule.method state.model.layout [] (start rule state) where
  rule_method := rfl
  round_eq := rfl
  length_eq := rfl
  entries_at := by simp [start, Audit.Log.empty]
  model_layout := rfl

/-- After any run from a start the books agree: the counter, the length of the audit and the count
of completed rounds are one number, each entry tells of its own completed round and divides the
clients of it, and the layouts are those of the start. Entries only ever come behind the others, and
a failed round writes nothing. So each client is kept or rejected once in every round that it could
take part in. -/
theorem books_of_run (rule : Rule) (state : State Single) (rounds : List Round) :
    let s := (start rule state).after rounds
    let done := (start rule state).completed rounds
    (s.round = s.audit.length ∧ s.audit.length = done.length) ∧
    (∀ (k : Nat) (e : Audit.Entry), s.audit.entries[k]? = some e →
      e.round = k ∧ e.method = rule.method.name ∧ e.Divides ∧
        ∃ updates : Round, done[k]? = some updates ∧ e.clients = updates.length) ∧
    (∀ before later, rounds = before ++ later →
      ((start rule state).after before).audit.entries <+: s.audit.entries) ∧
    (∀ updates fault, (s.run updates).2.result = .error fault →
      (s.run updates).1.state = s.state ∧ (s.run updates).1.round = s.round ∧
        (s.run updates).1.audit = s.audit) ∧
    s.state.model.layout = state.model.layout ∧
    (state.momentum.layout = state.model.layout →
      s.state.momentum.layout = s.state.model.layout) ∧
    ∀ i, s.audit.rejectionCount i + s.audit.entries.countP (fun e => e.selected.contains i)
      = s.audit.entries.countP fun e => decide (i < e.clients) := by
  intro s done
  have hb : Booked rule.method state.model.layout done s := (start_booked rule state).after rounds
  refine ⟨⟨hb.round_eq.trans hb.length_eq.symm, hb.length_eq⟩, hb.entries_at, ?_, ?_,
    hb.model_layout, ?_, ?_⟩
  · intro before later h
    have hs : s = ((start rule state).after before).after later := by
      rw [← after_append, ← h]
    rw [hs]
    exact after_audit_prefix _ later
  · intro updates fault h
    rw [(run_of_error (run_error_iff.mp h)).1]
    exact ⟨rfl, rfl, rfl⟩
  · intro h
    rw [hb.model_layout, ← h]
    exact after_momentum (start rule state) rounds
  · intro i
    refine s.audit.rejectionCount_add (fun e he => ?_) i
    obtain ⟨k, hk⟩ := List.getElem?_of_mem he
    exact (hb.entries_at k e hk).2.2.1

theorem books_of_run_interrupted :
    ((start (.central steady) (.fresh (.vector [.zero]))).after interrupted).round = 2 ∧
      (((start (.central steady) (.fresh (.vector [.zero]))).after interrupted).run []).1.audit
        = ((start (.central steady) (.fresh (.vector [.zero]))).after interrupted).audit := by
  obtain ⟨⟨hround, hlength⟩, -, -, hfails, -⟩ :=
    books_of_run (.central steady) (.fresh (.vector [.zero])) interrupted
  have hdone : ((start (.central steady) (.fresh (.vector [.zero]))).completed interrupted).length
      = 2 := by
    decide +kernel
  exact ⟨hround.trans (hlength.trans hdone), (hfails [] .emptyUpdates (run_nil _)).2.2⟩

end Server

end Federation
