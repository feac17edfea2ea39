import Federation.Proofs.Averages
import Federation.Proofs.Selection

/-!
# Outcomes of rounds

A round is stopped by the first obstacle in its way, and completed if there is none. For the plain
mean and the central majority the obstacles are seen in the number of updates and in their layouts.
After these checks the distances exist, the selection finds as many clients as it looks for, and
arithmetic only meets parameters of one layout. Only the sort of the central majority may still give
up, on distances that compare with nothing.
-/

set_option autoImplicit false

namespace Federation

/-- The first obstacle stops the round; without one it ends in an outcome of the given kind. -/
def Decides (obstacle : Option Fault) (result : Except Fault Outcome) (done : Outcome → Prop) :
    Prop :=
  match obstacle with
  | some fault => result = .error fault
  | none => ∃ outcome, result = .ok outcome ∧ done outcome

theorem Decides.error_iff {obstacle : Option Fault} {result : Except Fault Outcome}
    {done : Outcome → Prop} (h : Decides obstacle result done) (fault : Fault) :
    result = .error fault ↔ obstacle = some fault := by
  unfold Decides at h
  cases obstacle with
  | some first =>
    rw [h, Except.error.injEq, Option.some.injEq]
  | none =>
    obtain ⟨outcome, h, -⟩ := h
    simp [h]

theorem Decides.of_ok {obstacle : Option Fault} {result : Except Fault Outcome}
    {done : Outcome → Prop} {outcome : Outcome} (h : Decides obstacle result done)
    (ho : result = .ok outcome) : done outcome := by
  unfold Decides at h
  cases obstacle with
  | some fault => rw [h] at ho; cases ho
  | none =>
    obtain ⟨other, hr, hd⟩ := h
    rw [hr] at ho
    cases ho
    exact hd

theorem Decides.mono {obstacle : Option Fault} {result : Except Fault Outcome}
    {done done' : Outcome → Prop} (h : Decides obstacle result done)
    (hd : ∀ outcome, done outcome → done' outcome) : Decides obstacle result done' := by
  unfold Decides at h ⊢
  cases obstacle with
  | some fault => exact h
  | none =>
    obtain ⟨outcome, hr, ho⟩ := h
    exact ⟨outcome, hr, hd outcome ho⟩

namespace Average

variable {α : Type} {model : Params α} {updates : List (Params α)}

def misfit? (model : Params α) (updates : List (Params α)) : Option Nat :=
  updates.findIdx? fun u => decide (u.layout ≠ model.layout)

theorem misfit?_eq_some_iff {client : Nat} : misfit? model updates = some client ↔
    (∃ u, updates[client]? = some u ∧ u.layout ≠ model.layout) ∧
      ∀ i < client, ∀ u, updates[i]? = some u → u.layout = model.layout := by
  unfold misfit?
  rw [List.findIdx?_eq_some_iff_getElem]
  constructor
  · rintro ⟨hl, hm, hn⟩
    refine ⟨⟨_, List.getElem?_eq_getElem hl, of_decide_eq_true hm⟩, fun i hi u hu => ?_⟩
    obtain ⟨hil, rfl⟩ := List.getElem?_eq_some_iff.mp hu
    simpa using hn i hi
  · rintro ⟨⟨u, hu, hm⟩, hn⟩
    obtain ⟨hl, rfl⟩ := List.getElem?_eq_some_iff.mp hu
    refine ⟨hl, decide_eq_true hm, fun i hi => ?_⟩
    have hil : i < updates.length := by omega
    simpa using hn i hi _ (List.getElem?_eq_getElem hil)

theorem misfit?_eq_none_iff :
    misfit? model updates = none ↔ ∀ u ∈ updates, u.layout = model.layout := by
  simp [misfit?]

/-- What keeps a round from looking at its updates any further. -/
def obstacle? (model : Params α) (updates : List (Params α)) : Option Fault :=
  if updates = [] then some .emptyUpdates else (misfit? model updates).map .shapeMismatch

theorem check_eq (model : Params α) (updates : List (Params α)) :
    check model updates = match obstacle? model updates with
      | some fault => .error fault
      | none => .ok () := by
  unfold check obstacle? misfit?
  cases updates with
  | nil => rfl
  | cons u us =>
    rw [if_neg (by simp), if_neg (by simp)]
    cases (u :: us).findIdx? fun u => decide (u.layout ≠ model.layout) <;> rfl

theorem obstacle?_eq_none_iff : obstacle? model updates = none ↔
    updates ≠ [] ∧ ∀ u ∈ updates, u.layout = model.layout := by
  unfold obstacle?
  by_cases h : updates = []
  · simp [h]
  · rw [if_neg h, Option.map_eq_none_iff, misfit?_eq_none_iff]
    exact (and_iff_right h).symm

theorem layout_eq_of_obstacle? (h : obstacle? model updates = none) :
    ∀ p ∈ updates, ∀ q ∈ updates, p.layout = q.layout := by
  obtain ⟨-, hl⟩ := obstacle?_eq_none_iff.mp h
  intro p hp q hq
  rw [hl p hp, hl q hq]

theorem obstacle?_cases {fault : Fault} (h : obstacle? model updates = some fault) :
    fault = .emptyUpdates ∨ ∃ client, fault = .shapeMismatch client := by
  unfold obstacle? at h
  split at h
  · exact Or.inl (Option.some.inj h).symm
  · obtain ⟨client, -, hf⟩ := Option.map_eq_some_iff.mp h
    exact Or.inr ⟨client, hf.symm⟩

theorem obstacle?_eq_none_of_perm {model' : Params α} {updates' : List (Params α)}
    (hm : model.layout = model'.layout)
    (hp : (updates.map Params.layout).Perm (updates'.map Params.layout))
    (h : obstacle? model updates = none) : obstacle? model' updates' = none := by
  obtain ⟨hne, hl⟩ := obstacle?_eq_none_iff.mp h
  refine obstacle?_eq_none_iff.mpr ⟨fun he => ?_, fun u hu => ?_⟩
  · rw [he, List.map_nil] at hp
    exact hne (List.map_eq_nil_iff.mp hp.eq_nil)
  · have hmem := hp.symm.subset (List.mem_map_of_mem hu)
    obtain ⟨v, hv, hlv⟩ := List.mem_map.mp hmem
    rw [← hlv, hl v hv, hm]

theorem ofUpdates_exists [Scalar α] (h : obstacle? model updates = none) :
    ∃ mean, ofUpdates updates none = .ok mean ∧ mean.layout = model.layout := by
  obtain ⟨hne, hl⟩ := obstacle?_eq_none_iff.mp h
  rw [ofUpdates_eq hne hl]
  exact ofList_exists hne hl

end Average

namespace Mean

theorem round_decides (r : Mean) (state : State Single) (updates : List (Params Single)) :
    Decides (Average.obstacle? state.model updates) (r.round state updates).result fun outcome =>
      outcome.selected = List.range updates.length ∧ outcome.rejected = [] := by
  have hc := Average.check_eq state.model updates
  unfold Decides
  cases ho : Average.obstacle? state.model updates with
  | some fault =>
    rw [ho] at hc
    simp only [round, Logged.result_bind, Logged.result_lift, hc]
    rfl
  | none =>
    rw [ho] at hc
    obtain ⟨mean, hm, hl⟩ := Average.ofUpdates_exists ho
    obtain ⟨model, ha, -⟩ := Params.addScaled_exists (-r.rate) hl.symm
    exact ⟨_, round_ok_iff.mpr ⟨mean, model, hc, hm, ha, rfl⟩, rfl, rfl⟩

theorem round_exists (r : Mean) {state : State Single} {updates : List (Params Single)}
    (h : Average.obstacle? state.model updates = none) :
    ∃ outcome, (r.round state updates).result = .ok outcome ∧
      outcome.selected = List.range updates.length := by
  have hd := r.round_decides state updates
  rw [h] at hd
  obtain ⟨outcome, ho, hs, -⟩ := hd
  exact ⟨outcome, ho, hs⟩

end Mean

namespace Central

/-- What stops a round by the central majority. -/
def obstacle? (r : Central) (model : Params Single) (updates : List (Params Single)) :
    Option Fault :=
  Average.obstacle? model updates <|>
    if updates.length < r.faulty updates.length + 3 then
      some (.insufficientClients r.needed updates.length)
    else none

def boundEvents (r : Central) (clients : Nat) : List Event :=
  if clients < 2 * r.faulty clients + 3 then [.boundNotMet clients (r.faulty clients)] else []

theorem selectBy_of_few {sort : Sorting} {r : Central} {updates : List (Params Single)}
    (h : updates.length < r.faulty updates.length + 3) :
    r.selectBy sort updates = Logged.fail (.insufficientClients r.needed updates.length) := by
  simp only [selectBy, neighbourCount?_of_lt h]

theorem selectBy_error {sort : Sorting} {r : Central} {updates : List (Params Single)}
    {fault : Fault} {neighbours : Nat}
    (hlayout : ∀ p ∈ updates, ∀ q ∈ updates, p.layout = q.layout)
    (hn : neighbourCount? updates.length (r.faulty updates.length) = some neighbours)
    (h : (r.selectBy sort updates).result = .error fault) :
    fault = .contradictoryOrder ∧ ¬sort.Finishes := by
  obtain ⟨table, ht⟩ := distances_exist hlayout
  rw [result_selectBy hn, ht, except_bind_ok, except_bind_error_iff] at h
  rcases h with hs | ⟨scores, -, h⟩
  · refine ⟨neighbourScores_error hs, fun hfin => ?_⟩
    obtain ⟨scores, hok⟩ := neighbourScores_exists hfin table _
    cases hs.symm.trans hok
  · rcases except_bind_error_iff.mp h with ho | ⟨_, -, he⟩
    · refine ⟨order_error ho, fun hfin => ?_⟩
      obtain ⟨order, hok⟩ := order_exists hfin scores
      cases ho.symm.trans hok
    · cases he

theorem events_selectBy {sort : Sorting} {r : Central} {updates : List (Params Single)}
    (hlayout : ∀ p ∈ updates, ∀ q ∈ updates, p.layout = q.layout)
    (hword : updates.length + 1 < Count.bound)
    (hf : r.faulty updates.length + 3 ≤ updates.length) :
    (r.selectBy sort updates).events = r.boundEvents updates.length := by
  obtain ⟨table, ht⟩ := distances_exist hlayout
  have hw : updates.length < Count.saturate (2 * r.faulty updates.length + 3)
      ↔ updates.length < 2 * r.faulty updates.length + 3 := by
    unfold Count.saturate
    omega
  have hquiet : (do
      let scores ← neighbourScores sort table (updates.length - r.faulty updates.length - 2)
      let order ← Central.order sort scores
      return (insertionSort (fun i j => decide (i < j))
        (order.take (updates.length - r.faulty updates.length)), scores) :
      Logged (List Nat × List Double)).events = [] := by
    cases hs : neighbourScores sort table (updates.length - r.faulty updates.length - 2) with
    | error fault => rfl
    | ok scores =>
      rw [Logged.events_bind_of_ok rfl, Logged.events_lift, List.nil_append]
      cases Central.order sort scores <;> rfl
  simp only [selectBy, neighbourCount?_of_le (show updates.length < Count.bound by omega) hf,
    boundEvents, hw]
  split
  · rw [Logged.events_bind_of_ok rfl, Logged.events_bind_of_ok ht, hquiet]
    rfl
  · rw [Logged.events_bind_of_ok ht, hquiet]
    rfl

theorem needed_le_iff {r : Central} (h : ∀ f, r.assumed = some f → f + 3 < Count.bound)
    (clients : Nat) : r.needed ≤ clients ↔ r.faulty clients + 3 ≤ clients := by
  unfold needed faulty defaultFaulty
  cases ha : r.assumed with
  | none =>
    simp only [Option.getD_none]
    omega
  | some f =>
    simp only [Option.getD_some]
    rw [Count.saturate_of_lt (h f ha)]

variable {r : Central} {state : State Single} {updates : List (Params Single)}

theorem obstacle?_eq_none_iff {model : Params Single} : r.obstacle? model updates = none ↔
    Average.obstacle? model updates = none ∧ r.faulty updates.length + 3 ≤ updates.length := by
  unfold obstacle?
  cases Average.obstacle? model updates with
  | some fault => simp
  | none => simp

variable {sort : Sorting}

theorem roundBy_of_obstacle {fault : Fault} (h : r.obstacle? state.model updates = some fault) :
    r.roundBy sort state updates = Logged.fail fault := by
  have hc := Average.check_eq state.model updates
  unfold obstacle? at h
  cases ho : Average.obstacle? state.model updates with
  | some first =>
    rw [ho] at h hc
    cases h
    unfold roundBy
    rw [hc]
    rfl
  | none =>
    rw [ho] at h hc
    have hfew : updates.length < r.faulty updates.length + 3 := by
      by_contra hge
      simp [hge] at h
    have hfault : Fault.insufficientClients r.needed updates.length = fault := by
      simpa [hfew] using h
    unfold roundBy
    rw [hc, selectBy_of_few hfew, hfault]
    rfl

theorem roundBy_of_selectBy {selected : List Nat} {scores : List Double} (hsort : sort.Permutes)
    (h : Average.obstacle? state.model updates = none)
    (hs : (r.selectBy sort updates).result = .ok (selected, scores)) :
    ∃ outcome, (r.roundBy sort state updates).result = .ok outcome ∧
      outcome.selected.length = updates.length - r.faulty updates.length ∧
      (r.roundBy sort state updates).events = (r.selectBy sort updates).events ++
        [.centralSelection updates.length outcome.selected.length outcome.rejected] := by
  obtain ⟨hne, hl⟩ := Average.obstacle?_eq_none_iff.mp h
  have hlen := selectBy_length hsort hs
  obtain ⟨-, hf, order, -, -, hsel⟩ := selectBy_order hsort hs
  have hnil : selected ≠ [] := by
    rw [← List.length_pos_iff]
    omega
  have hlt : ∀ i ∈ selected, i < updates.length := by
    intro i hi
    rw [hsel] at hi
    exact List.mem_range.mp (List.mem_of_mem_filter hi)
  obtain ⟨mean, hm, hml⟩ := Average.selected_exists hnil hlt hl
  obtain ⟨model, ha, -⟩ := Params.addScaled_exists (-r.rate) hml.symm
  have hc := Average.check_ok_iff.mpr ⟨hne, hl⟩
  refine ⟨⟨⟨model, state.momentum⟩, selected,
    (List.range updates.length).filter fun i => !isFound selected i, some scores⟩, ?_, hlen, ?_⟩
  · simp only [roundBy, Logged.result_bind_ok_iff, Logged.result_lift, Logged.result_emit,
      Logged.result_pure]
    exact ⟨(), hc, _, hs, (), trivial, mean, hm, model, ha, rfl⟩
  · unfold roundBy
    rw [Logged.events_bind_of_ok hc, Logged.events_bind_of_ok hs, Logged.events_bind_of_ok rfl,
      Logged.events_bind_of_ok hm, Logged.events_bind_of_ok ha]
    rfl

theorem roundBy_of_selectBy_error {fault : Fault} (h : Average.obstacle? state.model updates = none)
    (hs : (r.selectBy sort updates).result = .error fault) :
    r.roundBy sort state updates = ⟨(r.selectBy sort updates).events, .error fault⟩ := by
  have hc := Average.check_ok_iff.mpr (Average.obstacle?_eq_none_iff.mp h)
  rw [roundBy, Logged.bind_ok hc, Logged.bind_error hs]
  rfl

theorem roundBy_of_counted {neighbours : Nat} (hsort : sort.Permutes)
    (h : Average.obstacle? state.model updates = none)
    (hn : neighbourCount? updates.length (r.faulty updates.length) = some neighbours) :
    (∃ outcome, (r.roundBy sort state updates).result = .ok outcome ∧
      outcome.selected.length = updates.length - r.faulty updates.length) ∨
    (r.roundBy sort state updates).result = .error .contradictoryOrder ∧ ¬sort.Finishes := by
  cases hs : (r.selectBy sort updates).result with
  | ok chosen =>
    obtain ⟨outcome, hr, hlen, -⟩ := roundBy_of_selectBy hsort h hs
    exact .inl ⟨outcome, hr, hlen⟩
  | error fault =>
    obtain ⟨rfl, hfin⟩ := selectBy_error (Average.layout_eq_of_obstacle? h) hn hs
    exact .inr ⟨by rw [roundBy_of_selectBy_error h hs], hfin⟩

/-- In a settled round no sort gives up. -/
theorem round_of_counted {neighbours : Nat} (h : Average.obstacle? state.model updates = none)
    (hn : neighbourCount? updates.length (r.faulty updates.length) = some neighbours) :
    (∃ outcome, (r.round state updates).result = .ok outcome ∧
      outcome.selected.length = updates.length - r.faulty updates.length) ∨
    ¬Settled updates ∧ (r.round state updates).result = .error .contradictoryOrder := by
  refine (roundBy_of_counted Sorting.standard_permutes h hn).imp_right fun ⟨hr, _⟩ => ⟨?_, hr⟩
  intro hset
  obtain ⟨hword, hf, -⟩ := neighbourCount?_eq_some_iff.mp hn
  obtain ⟨selected, scores, hs⟩ := select_exists r hset (Average.layout_eq_of_obstacle? h) hword hf
  obtain ⟨outcome, hok, -⟩ := roundBy_of_selectBy Sorting.standard_permutes h hs
  cases hr.symm.trans hok

theorem roundBy_ends {P : Prop} (hword : updates.length < Count.bound)
    (h : ∀ neighbours, Average.obstacle? state.model updates = none →
      neighbourCount? updates.length (r.faulty updates.length) = some neighbours →
      (∃ outcome, (r.roundBy sort state updates).result = .ok outcome ∧
        outcome.selected.length = updates.length - r.faulty updates.length) ∨ P) :
    Decides (r.obstacle? state.model updates) (r.roundBy sort state updates).result
      (fun outcome => outcome.selected.length = updates.length - r.faulty updates.length) ∨ P := by
  unfold Decides
  cases ho : r.obstacle? state.model updates with
  | some fault =>
    rw [roundBy_of_obstacle ho]
    exact .inl rfl
  | none =>
    obtain ⟨hc, hf⟩ := obstacle?_eq_none_iff.mp ho
    exact h _ hc (neighbourCount?_of_le hword hf)

theorem round_error {fault : Fault} (h : (r.round state updates).result = .error fault) :
    Average.obstacle? state.model updates = some fault ∨
      fault = .insufficientClients r.needed updates.length ∨
      fault = .contradictoryOrder ∧ ¬Settled updates := by
  cases ho : Average.obstacle? state.model updates with
  | some first =>
    rw [round, roundBy, Logged.result_bind, Logged.result_lift, Average.check_eq, ho] at h
    exact .inl (congrArg some (Except.error.inj h))
  | none =>
    cases hn : neighbourCount? updates.length (r.faulty updates.length) with
    | none =>
      rw [round, roundBy, Logged.result_bind, Logged.result_lift, Average.check_eq, ho,
        except_bind_ok, Logged.result_bind, selectBy] at h
      simp only [hn] at h
      exact .inr (.inl (Except.error.inj h).symm)
    | some neighbours =>
      rcases round_of_counted ho hn with ⟨outcome, hok, -⟩ | ⟨hset, hfault⟩
      · cases h.symm.trans hok
      · exact .inr (.inr ⟨Except.error.inj (h.symm.trans hfault), hset⟩)

theorem mem_events_roundBy (hsort : sort.Permutes) (hword : updates.length + 1 < Count.bound)
    (h : r.obstacle? state.model updates = none) :
    .boundNotMet updates.length (r.faulty updates.length) ∈ (r.roundBy sort state updates).events ↔
      updates.length < 2 * r.faulty updates.length + 3 := by
  obtain ⟨ho, hf⟩ := obstacle?_eq_none_iff.mp h
  have hevents : (r.selectBy sort updates).events = r.boundEvents updates.length :=
    events_selectBy (Average.layout_eq_of_obstacle? ho) hword hf
  have hwarn : .boundNotMet updates.length (r.faulty updates.length)
      ∈ r.boundEvents updates.length ↔ updates.length < 2 * r.faulty updates.length + 3 := by
    unfold boundEvents
    split <;> simp [*]
  rw [← hwarn, ← hevents]
  cases hs : (r.selectBy sort updates).result with
  | error fault => rw [roundBy_of_selectBy_error ho hs]
  | ok chosen =>
    obtain ⟨outcome, -, -, hall⟩ := roundBy_of_selectBy hsort ho hs
    simp [hall]

def trusting : Central := ⟨.ofNat 1, .ofNat 0, some 0⟩

/-- Twenty-one clients on a line, the sixth of which sends an invalid entry. -/
def invalidSixth : List (Params Single) :=
  (List.range 21).map fun i => .vector [if i = 5 then .nan else .ofNat i]

/-- The clients are enough and send updates of one layout, but a sort gives up before anything is
reported. -/
theorem round_gives_up :
    trusting.round (.fresh (.vector [.zero])) invalidSixth = ⟨[], .error .contradictoryOrder⟩ := by
  have ho : Average.obstacle? (State.fresh (.vector [.zero])).model invalidSixth = none := by
    decide +kernel
  have hlayout : ∀ p ∈ invalidSixth, ∀ q ∈ invalidSixth, p.layout = q.layout := by decide +kernel
  have hnone : (trusting.select invalidSixth).result.toOption.isNone = true := by decide +kernel
  cases hs : (trusting.select invalidSixth).result with
  | ok chosen =>
    rw [hs] at hnone
    cases hnone
  | error fault =>
    obtain ⟨rfl, -⟩ := selectBy_error hlayout
      (neighbourCount?_of_le (by decide +kernel) (by decide +kernel)) hs
    rw [round, roundBy_of_selectBy_error ho hs,
      events_selectBy hlayout (by decide +kernel) (by decide +kernel)]
    rfl

end Central

/-- How a round by the plain mean and one by the central majority end, whatever order sorts that
only move elements put the clients in. A round that is not refused never counts below zero, past a
word or past the end of a list, and it warns if the bound `2 * f + 3` is not met. The standard sort
is such a sort, but may give up in rounds that are not settled. The least number of clients that a
refused round reports is the least that would not be refused. -/
theorem round_decided (state : State Single) (updates : List (Params Single))
    (hword : updates.length + 1 < Count.bound) :
    (∀ r : Mean, Decides (Average.obstacle? state.model updates) (r.round state updates).result
      fun outcome => outcome.selected = List.range updates.length ∧ outcome.rejected = []) ∧
    ∀ r : Central,
      (∀ sort : Sorting, sort.Permutes →
        (sort.Finishes →
          Decides (r.obstacle? state.model updates) (r.roundBy sort state updates).result
            fun outcome => outcome.selected.length = updates.length - r.faulty updates.length) ∧
        (r.obstacle? state.model updates = none →
          r.faulty updates.length + 3 ≤ updates.length ∧
          Central.neighbourCount? updates.length (r.faulty updates.length)
            = some (updates.length - r.faulty updates.length - 2) ∧
          Count.next (updates.length - r.faulty updates.length - 2)
            = updates.length - r.faulty updates.length - 2 + 1 ∧
          (∀ row sorted : List Double, row.length = updates.length →
            sort.sorted Binary.lt row = .ok sorted →
            updates.length - r.faulty updates.length - 2 + 1 ≤ sorted.length) ∧
          (.boundNotMet updates.length (r.faulty updates.length)
              ∈ (r.roundBy sort state updates).events ↔
            updates.length < 2 * r.faulty updates.length + 3))) ∧
      (Sorting.standard.Permutes ∧ r.round state updates = r.roundBy .standard state updates ∧
        (Decides (r.obstacle? state.model updates) (r.round state updates).result
            (fun outcome => outcome.selected.length = updates.length - r.faulty updates.length) ∨
          ¬Central.Settled updates ∧
            (r.round state updates).result = .error .contradictoryOrder)) ∧
      ((∀ f, r.assumed = some f → f + 3 < Count.bound) → ∀ clients,
        r.needed ≤ clients ↔ r.faulty clients + 3 ≤ clients) := by
  refine ⟨fun r => r.round_decides state updates, fun r => ⟨fun sort hsort => ⟨fun hfin => ?_,
    fun ho => ⟨?_, ?_, ?_, ?_, Central.mem_events_roundBy hsort hword ho⟩⟩,
    ⟨Sorting.standard_permutes, rfl, Central.roundBy_ends (by omega) fun _ h hn =>
      Central.round_of_counted h hn⟩, Central.needed_le_iff⟩⟩
  · exact (Central.roundBy_ends (by omega) fun _ h hn =>
      Central.roundBy_of_counted hsort h hn).resolve_right fun h => h.2 hfin
  · exact (Central.obstacle?_eq_none_iff.mp ho).2
  · exact Central.neighbourCount?_of_le (by omega) (Central.obstacle?_eq_none_iff.mp ho).2
  · exact Count.next_of_lt (by omega)
  · intro row sorted hrow hs
    have hf := (Central.obstacle?_eq_none_iff.mp ho).2
    rw [(hsort.sorted_perm hs).length_eq]
    omega

theorem round_decided_six :
    (∃ outcome, (Central.roundBy .insertion ⟨.ofNat 1, .ofNat 0, some 2⟩ (.fresh (.vector [.zero]))
        (List.replicate 6 (.vector [.zero]))).result = .ok outcome ∧
      outcome.selected.length = 4) ∧
    .boundNotMet 6 2 ∈ (Central.round ⟨.ofNat 1, .ofNat 0, some 2⟩ (.fresh (.vector [.zero]))
      (List.replicate 6 (.vector [.zero]))).events := by
  have ho : Central.obstacle? ⟨.ofNat 1, .ofNat 0, some 2⟩ (State.fresh (.vector [.zero])).model
      (List.replicate 6 (.vector [.zero])) = none := by decide
  obtain ⟨hsorts, -⟩ := (round_decided (.fresh (.vector [.zero]))
    (List.replicate 6 (.vector [.zero])) (by decide)).2 ⟨.ofNat 1, .ofNat 0, some 2⟩
  have hends := (hsorts .insertion Sorting.insertion_permutes).1 Sorting.insertion_finishes
  rw [ho] at hends
  exact ⟨hends, ((hsorts .standard Sorting.standard_permutes).2 ho).2.2.2.2.mpr (by decide)⟩

end Federation
