import Federation.Proofs.Obstacles

/-!
# Reports

A rule reports what it does on its way, and the server adds how the round ended. Whatever the rule
got to report before it failed, nothing of it closes a round, so each call has one closing event, at
its end, unless a sort gave up: then there is none. Closing events and audit entries are made from
the same outcomes, so the log of a run and its audit tell the same story.
-/

set_option autoImplicit false

namespace Federation

variable {α β γ : Type}

namespace Logged

/-- All events are of one kind, also those of a computation that fails. -/
def Emits (kind : Event → Prop) (x : Logged α) : Prop := ∀ e ∈ x.events, kind e

variable {kind kind' : Event → Prop}

theorem emits_pure (a : α) : (pure a : Logged α).Emits kind := by
  simp [Emits]

theorem emits_lift (x : Except Fault α) : (liftM x : Logged α).Emits kind := by
  simp [Emits]

theorem emits_fail (fault : Fault) : (fail fault : Logged α).Emits kind := by
  simp [Emits, fail]

theorem emits_emit {event : Event} (h : kind event) : (emit event).Emits kind := by
  simpa [Emits] using h

theorem Emits.mono {x : Logged α} (hx : x.Emits kind) (h : ∀ e, kind e → kind' e) :
    x.Emits kind' := fun e he => h e (hx e he)

theorem Emits.bind {x : Logged α} {next : α → Logged β} (hx : x.Emits kind)
    (hnext : ∀ a, (next a).Emits kind) : (x >>= next).Emits kind := by
  intro e he
  cases h : x.result with
  | error fault =>
    rw [bind_error h] at he
    exact hx e he
  | ok a =>
    rw [bind_ok h] at he
    exact (List.mem_append.mp he).elim (hx e) (hnext a e)

theorem Emits.events_eq_nil {x : Logged α} (hx : x.Emits fun _ => False) : x.events = [] :=
  List.eq_nil_iff_forall_not_mem.mpr hx

theorem Emits.map {x : Logged α} (hx : x.Emits kind) (g : α → β) : (g <$> x).Emits kind := by
  rw [← bind_pure_comp]
  exact hx.bind fun a => emits_pure (g a)

theorem emits_mapM {g : α → Logged β} (h : ∀ x, (g x).Emits kind) (xs : List α) :
    (xs.mapM g).Emits kind := by
  induction xs with
  | nil => exact emits_pure []
  | cons x xs ih =>
    rw [List.mapM_cons]
    exact (h x).bind fun y => ih.bind fun ys => emits_pure (y :: ys)

theorem emits_upper {quantity : β → β → Logged γ} (h : ∀ x y, (quantity x y).Emits kind)
    (xs : List β) : (Pairwise.upper quantity xs).Emits kind := by
  induction xs with
  | nil => exact emits_pure []
  | cons x xs ih =>
    exact (emits_mapM (h x) xs).bind fun row => ih.bind fun rows => emits_pure (row :: rows)

end Logged

namespace Event

def isClosing : Event → Bool
  | roundFailed .. | roundComplete .. => true
  | _ => false

def isInfo (e : Event) : Bool := decide (e.level = .info)

def isRejection (e : Event) : Bool := decide (e.message = "MI filter rejected client updates")

/-- Any event but one that tells how a round ended. -/
def Underway (e : Event) : Prop := e.isClosing = false

theorem isClosing_iff_message (e : Event) :
    e.isClosing = true ↔ e.message = "aggregation round complete" ∨
      e.message = "aggregation round failed" := by
  cases e <;> simp [isClosing, message]

theorem Underway.isInfo {e : Event} (h : e.Underway) : e.isInfo = false := by
  cases e with
  | roundComplete => cases h
  | _ => simp [Event.isInfo, level]

end Event

open Event Logged

theorem Mean.round_emits (r : Mean) (state : State Single) (updates : Round) :
    (r.round state updates).Emits Underway :=
  .bind (emits_lift _) fun _ => .bind (emits_lift _) fun _ => .bind (emits_lift _) fun _ =>
    .bind (emits_emit rfl) fun _ => emits_pure _

namespace Central

theorem select_emits (r : Central) (updates : Round) : (r.select updates).Emits Underway := by
  simp only [select, selectBy]
  cases neighbourCount? updates.length (r.faulty updates.length) with
  | none => exact emits_fail _
  | some neighbours =>
    by_cases hw : updates.length < Count.saturate (2 * r.faulty updates.length + 3)
    · simp only [hw, if_true]
      exact .bind (emits_emit rfl) fun _ => .bind (emits_lift _) fun _ =>
        .bind (emits_lift _) fun _ => .bind (emits_lift _) fun _ => emits_pure _
    · simp only [hw, if_false]
      exact .bind (emits_lift _) fun _ => .bind (emits_lift _) fun _ =>
        .bind (emits_lift _) fun _ => emits_pure _

theorem round_emits (r : Central) (state : State Single) (updates : Round) :
    (r.round state updates).Emits Underway :=
  .bind (emits_lift _) fun _ => .bind (r.select_emits updates) fun _ =>
    .bind (emits_emit rfl) fun _ => .bind (emits_lift _) fun _ => .bind (emits_lift _) fun _ =>
      emits_pure _

end Central

namespace Information

open Statistics

theorem table_emits (outputs : List (Matrix Single)) :
    (table outputs).Emits fun e => ∃ rho remainder, e = .correlationSaturated rho remainder := by
  refine .map (emits_upper (fun a b => ?_) outputs) _
  refine .bind (emits_lift _) fun rho => ?_
  unfold ofCorrelation
  by_cases hs : isSaturated rho = true
  · simp only [hs, if_true]
    exact .bind (emits_emit ⟨_, _, rfl⟩) fun _ => emits_pure _
  · simp only [hs]
    exact emits_pure _

theorem clientTable_emits (r : Information) (model : Params Single) (updates : Round) :
    (r.clientTable model updates).2.Emits fun e =>
      ∃ rho remainder, e = .correlationSaturated rho remainder :=
  .bind (emits_lift _) fun outputs => table_emits outputs

def editReports (r : Information) (clients : Nat) (edit : TwoSigma Double) : List Event :=
  (if edit.isDegenerate then [.zeroDispersion edit.median] else []) ++
    .twoSigmaEdit clients (edit.partition r.threshold).1.length edit.median edit.spread ::
      if (edit.partition r.threshold).2.isEmpty then []
      else [.updatesRejected (edit.partition r.threshold).2]

theorem events_conclude {r : Information} {state : State Single} {updates : Round}
    {scores : List Double} {edit : TwoSigma Double} (h : TwoSigma.ofValues scores = .ok edit) :
    (r.conclude state updates scores).events =
      if edit.isDegenerate = true ∧ r.strict = true then []
      else r.editReports updates.length edit := by
  have hstep : ∀ outcome : State Single → Outcome, (do
      let mean ← Average.selected updates (edit.partition r.threshold).1
      let next ← state.nesterov mean r.beta r.rate
      return outcome next : Logged Outcome).events = [] := fun outcome =>
    Emits.events_eq_nil (.bind (emits_lift _) fun _ => .bind (emits_lift _) fun _ => emits_pure _)
  simp only [conclude]
  rw [events_bind_of_ok h, events_lift, List.nil_append]
  by_cases hd : edit.isDegenerate = true <;>
    by_cases hs : r.strict = true <;>
      by_cases hr : (edit.partition r.threshold).2.isEmpty = true
  all_goals
    simp only [hd, hs, hr, editReports, Bool.not_true, Bool.not_false, Bool.false_eq_true, and_self,
      and_false, false_and, if_true, if_false, events_bind_of_ok (result_emit _), events_emit,
      hstep, List.nil_append, List.cons_append, List.append_nil]
  all_goals rfl

theorem conclude_emits (r : Information) (state : State Single) (updates : Round)
    (scores : List Double) : (r.conclude state updates scores).Emits Underway := by
  cases h : TwoSigma.ofValues scores with
  | error fault =>
    have hfail : r.conclude state updates scores = fail fault := by
      simp only [conclude]
      rw [h]
      rfl
    rw [hfail]
    exact emits_fail fault
  | ok edit =>
    unfold Emits
    rw [events_conclude h]
    intro e he
    by_cases hs : edit.isDegenerate = true ∧ r.strict = true
    · simp [hs] at he
    · rw [if_neg hs, editReports, List.mem_append, List.mem_cons] at he
      rcases he with he | rfl | he
      · split at he
        · rw [List.mem_singleton.mp he]
          rfl
        · cases he
      · rfl
      · split at he
        · cases he
        · rw [List.mem_singleton.mp he]
          rfl

theorem round_emits (r : Information) (state : State Single) (updates : Round) :
    (r.round state updates).2.Emits Underway := by
  unfold round
  cases Average.check state.model updates with
  | error fault => exact emits_fail fault
  | ok _ =>
    refine .bind ((r.clientTable_emits state.model updates).mono ?_) fun table =>
      r.conclude_emits state updates (clientScores table)
    rintro e ⟨rho, remainder, rfl⟩
    rfl

theorem rejections_of_round {r : Information} {state : State Single} {updates : Round}
    {outcome : Outcome} (h : (r.round state updates).2.result = .ok outcome) :
    (r.round state updates).2.events.filter isRejection
      = if outcome.rejected = [] then [] else [.updatesRejected outcome.rejected] := by
  obtain ⟨table, hc, ht, hconclude⟩ := round_ok_iff.mp h
  obtain ⟨edit, mean, next, he, hs, -, -, rfl⟩ := conclude_ok_iff.mp hconclude
  have hevents : (r.round state updates).2.events = (r.clientTable state.model updates).2.events
      ++ r.editReports updates.length edit := by
    have hstrict : ¬(edit.isDegenerate = true ∧ r.strict = true) := by
      rintro ⟨hd, hstrict⟩
      rw [hs hd] at hstrict
      cases hstrict
    unfold round
    rw [hc]
    simp only
    rw [events_bind_of_ok ht, events_conclude he, if_neg hstrict]
  have htable : (r.clientTable state.model updates).2.events.filter isRejection = [] := by
    apply List.filter_eq_nil_iff.mpr
    intro e hmem
    obtain ⟨rho, remainder, rfl⟩ := r.clientTable_emits state.model updates e hmem
    simp [isRejection, message]
  rw [hevents, List.filter_append, htable, List.nil_append, editReports]
  by_cases hd : edit.isDegenerate = true <;>
    by_cases hr : (edit.partition r.threshold).2 = [] <;>
      simp [hd, hr, isRejection, message]

end Information

theorem Rule.round_emits (r : Rule) (state : State Single) (updates : Round) :
    (r.round state updates).2.Emits Underway := by
  cases r with
  | mean m => exact m.round_emits state updates
  | central c => exact c.round_emits state updates
  | information i => exact i.round_emits state updates

theorem Rule.rejections_of_round {r : Rule} {state : State Single} {updates : Round}
    {outcome : Outcome} (hm : r.method = .information)
    (h : (r.round state updates).2.result = .ok outcome) :
    (r.round state updates).2.events.filter isRejection
      = if outcome.rejected = [] then [] else [.updatesRejected outcome.rejected] := by
  cases r with
  | mean m => cases hm
  | central c => cases hm
  | information i => exact Information.rejections_of_round h

theorem Rule.panic_of_error {r : Rule} {state : State Single} {updates : Round} {fault : Fault}
    (h : (r.round state updates).2.result = .error fault) (hp : fault.isPanic = true) :
    fault = .contradictoryOrder ∧ (∃ c, r = .central c) ∧ ¬Central.Settled updates := by
  cases r with
  | mean m =>
    have ho := ((m.round_decides state updates).error_iff fault).mp h
    rcases Average.obstacle?_cases ho with rfl | ⟨client, rfl⟩ <;> cases hp
  | central c =>
    rcases Central.round_error h with ho | rfl | ⟨hfault, hset⟩
    · rcases Average.obstacle?_cases ho with rfl | ⟨client, rfl⟩ <;> cases hp
    · cases hp
    · exact ⟨hfault, ⟨c, rfl⟩, hset⟩
  | information i =>
    rw [Information.isPanic_of_error h] at hp
    cases hp

namespace Server

variable {s : Server} {updates : Round}

theorem events_of_error {fault : Fault}
    (h : (s.rule.round s.state updates).2.result = .error fault) (hp : fault.isPanic = false) :
    (s.run updates).2.events = (s.rule.round s.state updates).2.events
      ++ [.roundFailed s.round s.rule.method fault] := by
  simp [run, h, hp]

theorem events_of_panic {fault : Fault}
    (h : (s.rule.round s.state updates).2.result = .error fault) (hp : fault.isPanic = true) :
    (s.run updates).2.events = (s.rule.round s.state updates).2.events := by
  simp [run, h, hp]

theorem events_of_ok {outcome : Outcome}
    (h : (s.rule.round s.state updates).2.result = .ok outcome) :
    (s.run updates).2.events = (s.rule.round s.state updates).2.events
      ++ [.roundComplete s.round s.rule.method updates.length outcome.selected.length
        outcome.rejected.length] := by
  simp [run, h]

theorem run_method (s : Server) (updates : Round) :
    (s.run updates).1.rule.method = s.rule.method := by
  rw [run_rule, round_method]

def reports (s : Server) : List Round → List (List Event)
  | [] => []
  | updates :: rest => (s.run updates).2.events :: (s.run updates).1.reports rest

/-- What an entry of the audit says, as an event. -/
def announcement (method : Method) (e : Audit.Entry) : Event :=
  .roundComplete e.round method e.clients e.selected.length e.rejected.length

theorem filter_info_round (r : Rule) (state : State Single) (updates : Round) :
    (r.round state updates).2.events.filter isInfo = [] := by
  apply List.filter_eq_nil_iff.mpr
  intro e he
  rw [Underway.isInfo (r.round_emits state updates e he)]
  decide

theorem way_of_round (r : Rule) (state : State Single) (updates : Round) :
    ∀ e ∈ (r.round state updates).2.events, e.message ≠ "aggregation round complete" ∧
      e.message ≠ "aggregation round failed" := by
  intro e he
  have hunder := r.round_emits state updates e he
  rw [Underway, Bool.eq_false_iff, Ne, isClosing_iff_message, not_or] at hunder
  exact hunder

theorem Booked.announcements {method : Method} {layout : List Shape} {done : List Round}
    (hb : Booked method layout done s) :
    (s.audit.entries.map (announcement method)).map (fun e => (e.message, e.fields)) =
      s.audit.entries.zipIdx.map fun (e, k) => ("aggregation round complete",
        [("round", .count k), ("method", .text e.method), ("clients", .count e.clients),
          ("selected", .count e.selected.length), ("rejected", .count e.rejected.length)]) := by
  apply List.ext_getElem
  · simp
  · intro k hk hk'
    have hlt : k < s.audit.entries.length := by simpa using hk'
    obtain ⟨hround, hmethod, -⟩ := hb.entries_at k _ (List.getElem?_eq_getElem hlt)
    simp [announcement, message, fields, hround, hmethod]

theorem announced_of_run (s : Server) (rounds : List Round) :
    ∃ added, (s.after rounds).audit.entries = s.audit.entries ++ added ∧
      (s.reports rounds).flatten.filter isInfo = added.map (announcement s.rule.method) := by
  induction rounds generalizing s with
  | nil => exact ⟨[], by simp [after, reports]⟩
  | cons updates rest ih =>
    obtain ⟨added, haudit, hinfo⟩ := ih (s.run updates).1
    rw [run_method] at hinfo
    rw [after_cons, haudit, reports, List.flatten_cons, List.filter_append, hinfo]
    cases h : (s.rule.round s.state updates).2.result with
    | error fault =>
      refine ⟨added, by rw [(run_of_error h).1], ?_⟩
      cases hp : fault.isPanic with
      | true =>
        rw [events_of_panic h hp, filter_info_round]
        rfl
      | false =>
        rw [events_of_error h hp, List.filter_append, filter_info_round]
        rfl
    | ok outcome =>
      refine ⟨s.entry updates.length outcome :: added, ?_, ?_⟩
      · rw [(run_of_ok h).1]
        simp [Audit.Log.push]
      · rw [events_of_ok h, List.filter_append, filter_info_round]
        rfl

/-- The log of a run and its audit tell the same story. The announcements are the entries of the
audit, one by one. Each further call reports how it ended in its last event and nowhere before: a
failed one the round, the method and the fault, a completed one what its new entry says. The
informative majority names the clients that it left out exactly if there are any. Only a call that
panics reports no end: a sort of the central majority gave up in a round that is not settled, and
the server is left as it was. -/
theorem reports_of_run (rule : Rule) (state : State Single) (rounds : List Round) :
    let s := (start rule state).after rounds
    let announced := ((start rule state).reports rounds).flatten.filter isInfo
    (announced.map fun e => (e.message, e.fields)) =
      s.audit.entries.zipIdx.map (fun (e, k) => ("aggregation round complete",
        [("round", .count k), ("method", .text e.method), ("clients", .count e.clients),
          ("selected", .count e.selected.length), ("rejected", .count e.rejected.length)])) ∧
    ∀ updates,
      ((s.run updates).2.result ≠ .error .contradictoryOrder →
        ∃ way closing, (s.run updates).2.events = way ++ [closing] ∧
          (∀ e ∈ way, e.message ≠ "aggregation round complete" ∧
            e.message ≠ "aggregation round failed") ∧
          match (s.run updates).2.result with
          | .error fault =>
            closing.level = .warn ∧ closing.message = "aggregation round failed" ∧
              closing.fields = [("round", .count s.round), ("method", .text rule.method.name),
                ("error", .text fault.message)]
          | .ok _ =>
            closing.level = .info ∧ closing.message = "aggregation round complete" ∧
              ∃ e, (s.run updates).1.audit.entries = s.audit.entries ++ [e] ∧
                closing = announcement rule.method e ∧
                (rule.method = .information →
                  (s.run updates).2.events.filter isRejection =
                    if e.rejected = [] then [] else [.updatesRejected e.rejected])) ∧
      ((s.run updates).2.result = .error .contradictoryOrder →
        rule.method = .central ∧ ¬Central.Settled updates ∧
          (∀ e ∈ (s.run updates).2.events, e.message ≠ "aggregation round complete" ∧
            e.message ≠ "aggregation round failed") ∧
          (s.run updates).1.state = s.state ∧ (s.run updates).1.round = s.round ∧
          (s.run updates).1.audit = s.audit) := by
  intro s announced
  have hb : Booked rule.method state.model.layout _ s := (start_booked rule state).after rounds
  constructor
  · obtain ⟨added, haudit, hinfo⟩ := (start rule state).announced_of_run rounds
    have hentries : s.audit.entries = added := haudit.trans (List.nil_append added)
    have hannounced : announced = s.audit.entries.map (announcement rule.method) := by
      rw [hentries]
      exact hinfo
    rw [hannounced]
    exact hb.announcements
  · intro updates
    have hway := way_of_round s.rule s.state updates
    refine ⟨fun hfine => ?_, fun hpanic => ?_⟩
    · cases h : (s.rule.round s.state updates).2.result with
      | error fault =>
        have hp : fault.isPanic = false := by
          refine Bool.eq_false_iff.mpr fun hp => hfine ?_
          rw [(run_of_error h).2, (Rule.panic_of_error h hp).1]
        refine ⟨_, _, events_of_error h hp, hway, ?_⟩
        rw [(run_of_error h).2]
        refine ⟨rfl, rfl, ?_⟩
        simp [fields, hb.rule_method]
      | ok outcome =>
        refine ⟨_, _, events_of_ok h, hway, ?_⟩
        rw [(run_of_ok h).2]
        refine ⟨rfl, rfl, s.entry updates.length outcome, ?_, ?_, ?_⟩
        · rw [(run_of_ok h).1]
          rfl
        · rw [hb.rule_method]
          rfl
        · intro hmethod
          rw [events_of_ok h, List.filter_append,
            Rule.rejections_of_round (hb.rule_method.trans hmethod) h]
          exact List.append_nil _
    · have h := run_error_iff.mp hpanic
      obtain ⟨-, ⟨c, hc⟩, hset⟩ := Rule.panic_of_error h rfl
      refine ⟨?_, hset, ?_, ?_⟩
      · rw [← hb.rule_method, hc]
        rfl
      · rw [events_of_panic h rfl]
        exact hway
      · rw [(run_of_error h).1]
        exact ⟨rfl, rfl, rfl⟩

theorem reports_of_run_interrupted :
    ∃ way closing, (((start (.central steady) (.fresh (.vector [.zero]))).after interrupted).run
        []).2.events = way ++ [closing] ∧
      closing.level = .warn ∧ closing.message = "aggregation round failed" := by
  have h := ((reports_of_run (.central steady) (.fresh (.vector [.zero])) interrupted).2 []).1
  rw [run_nil] at h
  obtain ⟨way, closing, hevents, -, hlevel, hmessage, -⟩ := h (by simp)
  exact ⟨way, closing, hevents, hlevel, hmessage⟩

/-- A call that panics ends without a closing event, here without any event. -/
theorem reports_nothing_invalid :
    let call := ((start (.central Central.trusting) (.fresh (.vector [.zero]))).run
      Central.invalidSixth).2
    call.result = .error .contradictoryOrder ∧ call.events = [] := by
  have h : ((start (.central Central.trusting) (.fresh (.vector [.zero]))).rule.round
      (.fresh (.vector [.zero])) Central.invalidSixth).2 = ⟨[], .error .contradictoryOrder⟩ :=
    Central.round_gives_up
  have hfault := congrArg Logged.result h
  exact ⟨(run_of_error hfault).2, (events_of_panic hfault rfl).trans (congrArg Logged.events h)⟩

end Server

end Federation
