import Federation.Proofs.Deviations
import Federation.Proofs.Orders
import Federation.Proofs.Pairs
import Federation.Rule

/-!
# Successful rounds

Each rule is a sequence of steps any of which may fail. Here stands, once for each rule, what a
round that succeeds has computed on the way to its outcome.
-/

set_option autoImplicit false

namespace Federation

theorem Mean.round_ok_iff {r : Mean} {state : State Single} {updates : List (Params Single)}
    {outcome : Outcome} :
    (r.round state updates).result = .ok outcome ↔
      ∃ mean model, Average.check state.model updates = .ok () ∧
        Average.ofUpdates updates none = .ok mean ∧
        state.model.addScaled (-r.rate) mean = .ok model ∧
        outcome = ⟨⟨model, state.momentum⟩, List.range updates.length, [], none⟩ := by
  simp only [Mean.round, Logged.result_bind_ok_iff, Logged.result_lift, Logged.result_emit,
    Logged.result_pure, Except.ok.injEq]
  constructor
  · rintro ⟨_, hc, mean, hm, model, ha, _, _, rfl⟩
    exact ⟨mean, model, hc, hm, ha, rfl⟩
  · rintro ⟨mean, model, hc, hm, ha, rfl⟩
    exact ⟨(), hc, mean, hm, model, ha, (), trivial, rfl⟩

namespace Central

variable {sort : Sorting} {r : Central} {state : State Single} {updates : List (Params Single)}

theorem neighbourCount?_eq_some_iff {clients faulty neighbours : Nat} :
    neighbourCount? clients faulty = some neighbours ↔
      faulty + 2 < Count.bound ∧ faulty + 3 ≤ clients ∧ neighbours = clients - faulty - 2 := by
  unfold neighbourCount? Count.add? Count.sub?
  simp only [Option.filter_eq_some_iff, Option.bind_eq_some_iff, Option.ite_none_right_eq_some,
    Option.some.injEq, decide_eq_true_eq]
  constructor
  · rintro ⟨⟨reserved, ⟨hb, rfl⟩, hle, rfl⟩, hpos⟩
    exact ⟨hb, by omega, by omega⟩
  · rintro ⟨hb, hle, rfl⟩
    exact ⟨⟨_, ⟨hb, rfl⟩, by omega, by omega⟩, by omega⟩

theorem neighbourCount?_of_le {clients faulty : Nat} (hword : clients < Count.bound)
    (h : faulty + 3 ≤ clients) :
    neighbourCount? clients faulty = some (clients - faulty - 2) :=
  neighbourCount?_eq_some_iff.mpr ⟨by omega, h, rfl⟩

theorem neighbourCount?_of_lt {clients faulty : Nat} (h : clients < faulty + 3) :
    neighbourCount? clients faulty = none := by
  rw [Option.eq_none_iff_forall_ne_some]
  intro neighbours hn
  have hle := (neighbourCount?_eq_some_iff.mp hn).2.1
  omega

theorem result_selectBy {neighbours : Nat}
    (hn : neighbourCount? updates.length (r.faulty updates.length) = some neighbours) :
    (r.selectBy sort updates).result = do
      let table ← distances updates
      let scores ← neighbourScores sort table neighbours
      let order ← Central.order sort scores
      return (insertionSort (fun i j => decide (i < j))
        (order.take (updates.length - r.faulty updates.length)), scores) := by
  simp only [selectBy, hn]
  split
  · rw [Logged.result_bind]
    simp only [Logged.result_emit, except_bind_ok, Logged.result_bind, Logged.result_lift]
    rfl
  · simp only [Logged.result_bind, Logged.result_lift]
    rfl

/-- A selection succeeds when there are enough clients, all their distances exist, and the sort
gives up neither on a row of distances nor on the scores. -/
theorem selectBy_ok_iff {selected : List Nat} {scores : List Double} :
    (r.selectBy sort updates).result = .ok (selected, scores) ↔
      ∃ neighbours table order,
        neighbourCount? updates.length (r.faulty updates.length) = some neighbours ∧
        distances updates = .ok table ∧
        neighbourScores sort table neighbours = .ok scores ∧
        Central.order sort scores = .ok order ∧
        selected = insertionSort (fun i j => decide (i < j))
          (order.take (updates.length - r.faulty updates.length)) := by
  cases hn : neighbourCount? updates.length (r.faulty updates.length) with
  | none => simp [selectBy, hn]
  | some neighbours =>
    simp only [result_selectBy hn, except_bind_ok_iff, pure, Except.pure, Except.ok.injEq,
      Prod.mk.injEq, Option.some.injEq]
    constructor
    · rintro ⟨table, ht, _, hs, order, ho, rfl, rfl⟩
      exact ⟨neighbours, table, order, rfl, ht, hs, ho, rfl⟩
    · rintro ⟨_, table, order, rfl, ht, hs, ho, rfl⟩
      exact ⟨table, ht, scores, hs, order, ho, rfl, rfl⟩

theorem selectBy_ascends {selected : List Nat} {scores : List Double}
    (h : (r.selectBy sort updates).result = .ok (selected, scores)) :
    selected.Pairwise (· ≤ ·) := by
  obtain ⟨-, -, order, -, -, -, -, rfl⟩ := selectBy_ok_iff.mp h
  exact ascends_indices _

theorem neighbourScores_length {table : Matrix Double} {neighbours : Nat} {scores : List Double}
    (h : neighbourScores sort table neighbours = .ok scores) : scores.length = table.height :=
  (mapM_ok_iff.mp h).length_eq.symm

/-- The selected clients are the first in an order of all, listed by their indices. -/
theorem selectBy_order (hsort : sort.Permutes) {selected : List Nat} {scores : List Double}
    (h : (r.selectBy sort updates).result = .ok (selected, scores)) :
    scores.length = updates.length ∧ r.faulty updates.length + 3 ≤ updates.length ∧
    ∃ order, order.Perm (List.range updates.length) ∧ Central.order sort scores = .ok order ∧
      selected = (List.range updates.length).filter fun i =>
        (order.take (updates.length - r.faulty updates.length)).contains i := by
  obtain ⟨neighbours, table, order, hn, ht, hs, ho, rfl⟩ := selectBy_ok_iff.mp h
  have hlen : scores.length = updates.length := by
    rw [neighbourScores_length hs]
    exact Pairwise.height_table ht
  have hperm := order_perm hsort ho
  rw [hlen] at hperm
  exact ⟨hlen, (neighbourCount?_eq_some_iff.mp hn).2.1, order, hperm, ho, sort_take hperm _⟩

theorem selectBy_length (hsort : sort.Permutes) {selected : List Nat} {scores : List Double}
    (h : (r.selectBy sort updates).result = .ok (selected, scores)) :
    selected.length = updates.length - r.faulty updates.length := by
  obtain ⟨-, -, order, hperm, -, rfl⟩ := selectBy_order hsort h
  rw [← sort_take hperm, length_insertionSort, List.length_take, hperm.length_eq,
    List.length_range]
  exact Nat.min_eq_left (Nat.sub_le _ _)

theorem roundBy_ok_iff {outcome : Outcome} :
    (r.roundBy sort state updates).result = .ok outcome ↔
      ∃ selected scores mean model, Average.check state.model updates = .ok () ∧
        (r.selectBy sort updates).result = .ok (selected, scores) ∧
        Average.selected updates selected = .ok mean ∧
        state.model.addScaled (-r.rate) mean = .ok model ∧
        outcome = ⟨⟨model, state.momentum⟩, selected,
          (List.range updates.length).filter fun i => !selected.contains i, some scores⟩ := by
  simp only [roundBy, Logged.result_bind_ok_iff, Logged.result_lift, Logged.result_emit,
    Logged.result_pure, Except.ok.injEq]
  have hrejected {selected : List Nat} {scores : List Double}
      (hs : (r.selectBy sort updates).result = .ok (selected, scores)) :
      ((List.range updates.length).filter fun i => !isFound selected i)
        = (List.range updates.length).filter fun i => !selected.contains i := by
    refine List.filter_congr fun i _ => congrArg not (Bool.eq_iff_iff.mpr ?_)
    rw [isFound_iff (selectBy_ascends hs), List.contains_iff_mem]
  constructor
  · rintro ⟨_, hc, ⟨selected, scores⟩, hs, _, _, mean, hm, model, ha, rfl⟩
    exact ⟨selected, scores, mean, model, hc, hs, hm, ha, by rw [hrejected hs]⟩
  · rintro ⟨selected, scores, mean, model, hc, hs, hm, ha, rfl⟩
    exact ⟨(), hc, ⟨selected, scores⟩, hs, (), trivial, mean, hm, model, ha, by rw [hrejected hs]⟩

theorem round_ok_iff {outcome : Outcome} :
    (r.round state updates).result = .ok outcome ↔
      ∃ selected scores mean model, Average.check state.model updates = .ok () ∧
        (r.select updates).result = .ok (selected, scores) ∧
        Average.selected updates selected = .ok mean ∧
        state.model.addScaled (-r.rate) mean = .ok model ∧
        outcome = ⟨⟨model, state.momentum⟩, selected,
          (List.range updates.length).filter fun i => !selected.contains i, some scores⟩ :=
  roundBy_ok_iff

theorem faulty_le_of_select {selected : List Nat} {scores : List Double}
    (h : (r.select updates).result = .ok (selected, scores)) :
    r.faulty updates.length + 3 ≤ updates.length :=
  (selectBy_order Sorting.standard_permutes h).2.1

end Central

theorem Probe.outputsOf_cons_ok_iff {batch : Matrix Single} {p : Probe} {model : Params Single}
    {models : List (Params Single)} {outputs : List (Matrix Single)} :
    (outputsOf batch p (model :: models)).2 = .ok outputs ↔
      ∃ loaded output rest, p.load model = .ok loaded ∧ loaded.forward batch = .ok output ∧
        (outputsOf batch loaded models).2 = .ok rest ∧ outputs = output :: rest := by
  have hd : (outputsOf batch p (model :: models)).2 = do
      let loaded ← p.load model
      let output ← loaded.forward batch
      let rest ← (outputsOf batch loaded models).2
      return output :: rest := by
    rw [outputsOf]
    cases p.load model with
    | error fault => rfl
    | ok loaded =>
      simp only
      cases hf : loaded.forward batch with
      | error fault => simp [bind, Except.bind, hf]
      | ok output =>
        cases hr : (outputsOf batch loaded models).2 with
        | error fault => simp [bind, Except.bind, hf, hr, Except.map]
        | ok rest => simp [bind, Except.bind, hf, hr, Except.map, pure, Except.pure]
  simp only [hd, except_bind_ok_iff, pure, Except.pure, Except.ok.injEq, eq_comm (a := outputs),
    ← exists_and_left]

namespace Information

open Statistics

theorem result_conclude (r : Information) (state : State Single) (updates : List (Params Single))
    (scores : List Double) :
    (r.conclude state updates scores).result = do
      let edit ← TwoSigma.ofValues scores
      if edit.isDegenerate = true ∧ r.strict = true then
        .error (.statistics (.zeroDeviation edit.median))
      else do
        let mean ← Average.selected updates (edit.partition r.threshold).1
        let next ← state.nesterov mean r.beta r.rate
        return ⟨next, (edit.partition r.threshold).1, (edit.partition r.threshold).2,
          some scores⟩ := by
  simp only [conclude, Logged.result_bind, Logged.result_lift]
  refine bind_congr fun edit => ?_
  by_cases hd : edit.isDegenerate = true <;>
    by_cases hs : r.strict = true <;>
      by_cases hr : (edit.partition r.threshold).2.isEmpty = true
  all_goals
    simp only [hd, hs, hr, Bool.not_true, Bool.not_false, Bool.false_eq_true, and_self, and_false,
      false_and, if_true, if_false, Logged.result_bind, Logged.result_lift, Logged.result_emit,
      Logged.result_fail, Logged.result_pure]
    rfl

theorem conclude_ok_iff {r : Information} {state : State Single} {updates : List (Params Single)}
    {scores : List Double} {outcome : Outcome} :
    (r.conclude state updates scores).result = .ok outcome ↔
      ∃ edit mean next, TwoSigma.ofValues scores = .ok edit ∧
        (edit.isDegenerate = true → r.strict = false) ∧
        Average.selected updates (edit.partition r.threshold).1 = .ok mean ∧
        state.nesterov mean r.beta r.rate = .ok next ∧
        outcome = ⟨next, (edit.partition r.threshold).1, (edit.partition r.threshold).2,
          some scores⟩ := by
  rw [result_conclude, except_bind_ok_iff]
  constructor
  · rintro ⟨edit, he, h⟩
    split at h
    · cases h
    · rename_i hs
      obtain ⟨mean, hm, h⟩ := except_bind_ok_iff.mp h
      obtain ⟨next, hn, h⟩ := except_bind_ok_iff.mp h
      exact ⟨edit, mean, next, he, by simpa using hs, hm, hn, (Except.ok.inj h).symm⟩
  · rintro ⟨edit, mean, next, he, hs, hm, hn, rfl⟩
    refine ⟨edit, he, ?_⟩
    rw [if_neg (by simpa using hs), hm]
    exact except_bind_ok_iff.mpr ⟨mean, rfl, except_bind_ok_iff.mpr ⟨next, hn, rfl⟩⟩

theorem round_ok_iff {r : Information} {state : State Single} {updates : List (Params Single)}
    {outcome : Outcome} :
    (r.round state updates).2.result = .ok outcome ↔
      ∃ table, Average.check state.model updates = .ok () ∧
        (r.clientTable state.model updates).2.result = .ok table ∧
        (r.conclude state updates (clientScores table)).result = .ok outcome := by
  unfold round
  cases Average.check state.model updates with
  | error fault => simp
  | ok _ => simp [Logged.result_bind_ok_iff]

end Information

end Federation
